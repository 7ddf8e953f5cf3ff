import Mathlib.Tactic.Common

/-! Total correctness of programs with state and exceptions: a program runs from a
state if it ends without an exception, in a result and a state with a property. -/

namespace Datashil.Library
variable {ε σ α β : Type}

def Ran (program : EStateM ε σ α) (state : σ) (post : α → σ → Prop) : Prop :=
  ∃ result final, program state = .ok result final ∧ post result final

theorem Ran.imp {program : EStateM ε σ α} {state : σ} {post weaker : α → σ → Prop}
    (ran : Ran program state post)
    (implies : ∀ result final, post result final → weaker result final) : Ran program state weaker := by
  obtain ⟨result, final, ended, holds⟩ := ran
  exact ⟨result, final, ended, implies result final holds⟩

/-- What has been proved of the first of two programs is known where the second starts. -/
theorem Ran.bind {first : EStateM ε σ α} {next : α → EStateM ε σ β} {state : σ} {middle : α → σ → Prop}
    {post : β → σ → Prop}
    (ran : Ran first state middle)
    (continues : ∀ result final, middle result final → Ran (next result) final post) :
    Ran (first >>= next) state post := by
  obtain ⟨result, final, ended, holds⟩ := ran
  obtain ⟨result', final', ended', holds'⟩ := continues result final holds
  refine ⟨result', final', ?_, holds'⟩
  simp only [Bind.bind, EStateM.bind, ended, ended']

theorem ran_bind {first : EStateM ε σ α} {next : α → EStateM ε σ β} {state : σ} {post : β → σ → Prop} :
    Ran (first >>= next) state post ↔ Ran first state fun result final => Ran (next result) final post := by
  constructor
  · rintro ⟨result', final', ended', holds'⟩
    cases ended : first state with
    | ok result final =>
      refine ⟨result, final, ended, result', final', ?_, holds'⟩
      simpa only [Bind.bind, EStateM.bind, ended] using ended'
    | error failure final => simp [Bind.bind, EStateM.bind, ended] at ended'
  · intro ran
    exact ran.bind fun _ _ continues => continues

/-- Only the run from the current state matters for what follows. -/
theorem bind_first_congr {first first' : EStateM ε σ α} {state : σ} (same : first state = first' state)
    (next : α → EStateM ε σ β) :
    (first >>= next) state = (first' >>= next) state := by
  simp only [Bind.bind, EStateM.bind, same]

theorem bind_of_run {first : EStateM ε σ α} {state final : σ} {result : α}
    (ended : first state = .ok result final) (next : α → EStateM ε σ β) :
    (first >>= next) state = next result final := by
  simp only [Bind.bind, EStateM.bind, ended]

theorem map_of_run {first : EStateM ε σ α} {state final : σ} {result : α}
    (ended : first state = .ok result final) (f : α → β) :
    (f <$> first) state = .ok (f result) final := by
  simp only [Functor.map, EStateM.map, ended]

theorem map_congr_run {first second : EStateM ε σ α} {state state' : σ}
    (same : first state = second state') (f : α → β) :
    (f <$> first) state = (f <$> second) state' := by
  simp only [Functor.map, EStateM.map, same]

theorem ran_of_eq {program : EStateM ε σ α} {state final : σ} {result : α} {post : α → σ → Prop}
    (ended : program state = .ok result final) : Ran program state post ↔ post result final := by
  constructor
  · rintro ⟨result', final', ended', holds⟩
    rw [ended] at ended'
    cases ended'
    exact holds
  · exact fun holds => ⟨result, final, ended, holds⟩

/-- What a run from a fixed state leads to can be computed. -/
instance {program : EStateM ε σ α} {state : σ} {post : α → σ → Prop}
    [∀ result final, Decidable (post result final)] :
    Decidable (Ran program state post) :=
  match ended : program state with
  | .ok _ _ => decidable_of_iff _ (ran_of_eq ended).symm
  | .error _ _ => .isFalse fun ⟨_, _, other, _⟩ => by
    rw [ended] at other
    cases other

theorem ran_pure {result : α} {state : σ} {post : α → σ → Prop} :
    Ran (pure result : EStateM ε σ α) state post ↔ post result state := ran_of_eq rfl

theorem ran_get {state : σ} {post : σ → σ → Prop} :
    Ran (get : EStateM ε σ σ) state post ↔ post state state :=
  ran_of_eq rfl

theorem ran_modify {f : σ → σ} {state : σ} {post : PUnit → σ → Prop} :
    Ran (modify f : EStateM ε σ PUnit) state post ↔ post ⟨⟩ (f state) := ran_of_eq rfl

theorem ran_when {condition : Prop} [Decidable condition] {first : EStateM ε σ Unit}
    {next : EStateM ε σ β} {state : σ}
    {post : β → σ → Prop} :
    Ran (if condition then first >>= fun _ => next else next) state post ↔
      Ran (if condition then first else pure ()) state fun _ final => Ran next final post := by
  split
  · exact ran_bind
  · rw [ran_pure]

/-! ### Runs that may end in an exception -/

/-- What holds where a program ends, by itself or with an exception. Unlike `Ran`, it says nothing of
how the program ends, so it can be kept across a handler. -/
def After (program : EStateM ε σ α) (state : σ) (post : Except ε α → σ → Prop) : Prop :=
  match program state with
  | .ok result final => post (.ok result) final
  | .error failure final => post (.error failure) final

theorem After.imp {program : EStateM ε σ α} {state : σ} {post weaker : Except ε α → σ → Prop}
    (after : After program state post)
    (implies : ∀ result final, post result final → weaker result final) : After program state weaker := by
  simp only [After] at after ⊢
  split <;> simp_all

theorem After.and {program : EStateM ε σ α} {state : σ} {first second : Except ε α → σ → Prop}
    (left : After program state first)
    (right : After program state second) : After program state fun result final => first result final ∧
      second result final := by
  simp only [After] at left right ⊢
  split <;> simp_all

/-- Where a program ends can be computed. -/
instance {program : EStateM ε σ α} {state : σ} {post : Except ε α → σ → Prop}
    [∀ result final, Decidable (post result final)] :
    Decidable (After program state post) :=
  match ended : program state with
  | .ok result final => decidable_of_iff (post (.ok result) final) (by simp only [After, ended])
  | .error failure final => decidable_of_iff (post (.error failure) final) (by simp only [After, ended])

theorem After.exists {program : EStateM ε σ α} {state : σ} {post : Except ε α → σ → Prop}
    (after : After program state post) :
    ∃ result final, post result final := by
  simp only [After] at after
  split at after
  · exact ⟨_, _, after⟩
  · exact ⟨_, _, after⟩

theorem after_ended (program : EStateM ε σ α) (state : σ) : After program state fun result final =>
    match result with
    | .ok value => program state = .ok value final
    | .error failure => program state = .error failure final := by
  simp only [After]
  split <;> assumption

theorem After.elim {program : EStateM ε σ α} {state final : σ} {result : α} {post : Except ε α → σ → Prop}
    (after : After program state post) (ended : program state = .ok result final) :
    post (.ok result) final := by
  simpa only [After, ended] using after

theorem after_of_ran {program : EStateM ε σ α} {state : σ} {post : Except ε α → σ → Prop}
    (ran : Ran program state fun result final => post (.ok result) final) : After program state post := by
  obtain ⟨result, final, ended, holds⟩ := ran
  simpa only [After, ended] using holds

theorem ran_iff_after {program : EStateM ε σ α} {state : σ} {post : α → σ → Prop} :
    Ran program state post ↔ After program state fun result final => ∃ value, result = .ok value ∧
      post value final := by
  constructor
  · intro ran
    exact after_of_ran (ran.imp fun result final holds => ⟨result, rfl, holds⟩)
  · intro after
    simp only [After] at after
    split at after
    next result final ended =>
      obtain ⟨_, ⟨⟩, holds⟩ := after
      exact ⟨result, final, ended, holds⟩
    next => simp at after

theorem after_bind {first : EStateM ε σ α} {next : α → EStateM ε σ β} {state : σ}
    {post : Except ε β → σ → Prop} :
    After (first >>= next) state post ↔ After first state fun result final =>
      match result with
      | .ok value => After (next value) final post
      | .error failure => post (.error failure) final := by
  simp only [After, Bind.bind, EStateM.bind]
  cases first state <;> rfl

theorem after_pure {result : α} {state : σ} {post : Except ε α → σ → Prop} :
    After (pure result : EStateM ε σ α) state post ↔ post (.ok result) state := Iff.rfl

theorem after_get {state : σ} {post : Except ε σ → σ → Prop} :
    After (get : EStateM ε σ σ) state post ↔ post (.ok state) state := Iff.rfl

theorem after_modify {f : σ → σ} {state : σ} {post : Except ε PUnit → σ → Prop} :
    After (modify f : EStateM ε σ PUnit) state post ↔ post (.ok ⟨⟩) (f state) := Iff.rfl

theorem after_throw {failure : ε} {state : σ} {post : Except ε α → σ → Prop} :
    After (throw failure : EStateM ε σ α) state post ↔ post (.error failure) state := Iff.rfl

/-- A handler goes on from the state in which the exception was thrown. -/
theorem after_tryCatch {program : EStateM ε σ α} {handler : ε → EStateM ε σ α} {state : σ}
    {post : Except ε α → σ → Prop} :
    After (tryCatch program handler) state post ↔ After program state fun result final =>
      match result with
      | .ok value => post (.ok value) final
      | .error failure => After (handler failure) final post := by
  simp only [After, tryCatch, tryCatchThe, MonadExceptOf.tryCatch, EStateM.tryCatch]
  cases program state <;> rfl

-- Comparing two postconditions must not run the program.
attribute [irreducible] After

theorem Ran.elim {program : EStateM ε σ α} {state final : σ} {result : α} {post : α → σ → Prop}
    (ran : Ran program state post)
    (ended : program state = .ok result final) : post result final := (ran_of_eq ended).mp ran

end Datashil.Library
