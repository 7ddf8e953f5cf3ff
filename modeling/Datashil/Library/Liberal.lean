import Datashil.Library.Run

/-! Partial correctness of programs with state and exceptions: what holds wherever a run
that throws nothing leads. -/

namespace Datashil.Library
variable {ε σ α β : Type}

def Whenever (program : EStateM ε σ α) (state : σ) (post : α → σ → Prop) : Prop :=
  ∀ result final, program state = .ok result final → post result final

theorem Whenever.imp {program : EStateM ε σ α} {state : σ} {post weaker : α → σ → Prop}
    (whenever : Whenever program state post)
    (implies : ∀ result final, post result final → weaker result final) : Whenever program state weaker :=
  fun result final ended => implies result final (whenever result final ended)

theorem Whenever.and {program : EStateM ε σ α} {state : σ} {first second : α → σ → Prop}
    (left : Whenever program state first)
    (right : Whenever program state second) :
    Whenever program state fun result final => first result final ∧ second result final :=
  fun result final ended => ⟨left result final ended, right result final ended⟩

theorem Whenever.of_eq {program program' : EStateM ε σ α} {state : σ} {post : α → σ → Prop}
    (same : program state = program' state)
    (whenever : Whenever program' state post) : Whenever program state post :=
  fun result final ended => whenever result final (same ▸ ended)

/-- What has been proved of a run that does end may be used. -/
theorem Ran.whenever {program : EStateM ε σ α} {state : σ} {known post : α → σ → Prop}
    (ran : Ran program state known)
    (whenever : Whenever program state fun result final => known result final → post result final) :
    Whenever program state post :=
  fun result final ended => whenever result final ended (ran.elim ended)

theorem Ran.and {program : EStateM ε σ α} {state : σ} {first second : α → σ → Prop}
    (ran : Ran program state first)
    (whenever : Whenever program state second) :
    Ran program state fun result final => first result final ∧ second result final := by
  obtain ⟨result, final, ended, holds⟩ := ran
  exact ⟨result, final, ended, holds, whenever result final ended⟩

theorem whenever_bind {first : EStateM ε σ α} {next : α → EStateM ε σ β} {state : σ} {post : β → σ → Prop} :
    Whenever (first >>= next) state post ↔ Whenever first state fun result final =>
      Whenever (next result) final post := by
  constructor
  · intro whenever result final ended result' final' ended'
    apply whenever
    simp only [Bind.bind, EStateM.bind, ended, ended']
  · intro whenever result' final' ended
    cases before : first state with
    | ok result final =>
      simp only [Bind.bind, EStateM.bind, before] at ended
      exact whenever result final before result' final' ended
    | error failure final => simp [Bind.bind, EStateM.bind, before] at ended

theorem whenever_of_eq {program : EStateM ε σ α} {state final : σ} {result : α} {post : α → σ → Prop}
    (ended : program state = .ok result final) : Whenever program state post ↔ post result final := by
  constructor
  · exact fun whenever => whenever result final ended
  · intro holds result' final' ended'
    rw [ended] at ended'
    cases ended'
    exact holds

theorem whenever_pure {result : α} {state : σ} {post : α → σ → Prop} :
    Whenever (pure result : EStateM ε σ α) state post ↔ post result state := whenever_of_eq rfl

theorem whenever_get {state : σ} {post : σ → σ → Prop} :
    Whenever (get : EStateM ε σ σ) state post ↔ post state state :=
  whenever_of_eq rfl

theorem whenever_modify {f : σ → σ} {state : σ} {post : PUnit → σ → Prop} :
    Whenever (modify f : EStateM ε σ PUnit) state post ↔ post ⟨⟩ (f state) := whenever_of_eq rfl

theorem whenever_throw {failure : ε} {state : σ} {post : α → σ → Prop} :
    Whenever (throw failure : EStateM ε σ α) state post := by
  intro result final ended
  cases ended

theorem whenever_when {condition : Prop} [Decidable condition] {first : EStateM ε σ Unit}
    {next : EStateM ε σ β} {state : σ}
    {post : β → σ → Prop} :
    Whenever (if condition then first >>= fun _ => next else next) state post ↔
      Whenever (if condition then first else pure ()) state fun _ final => Whenever next final post := by
  split
  · exact whenever_bind
  · rw [whenever_pure]

end Datashil.Library
