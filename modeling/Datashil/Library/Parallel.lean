import Datashil.Library.Run

/-! Two programs with state and exceptions, side by side: they end in the same way, in
states that are related. -/

namespace Datashil.Library
variable {ε σ α β : Type}

/-- One result or one exception, each with a relation on the states. -/
inductive Alike (fail : σ → σ → Prop) (post : α → σ → σ → Prop) :
    EStateM.Result ε σ α → EStateM.Result ε σ α → Prop
  | ok {result : α} {final final' : σ} (holds : post result final final') :
      Alike fail post (.ok result final) (.ok result final')
  | error {failure : ε} {final final' : σ} (holds : fail final final') :
      Alike fail post (.error failure final) (.error failure final')

namespace Alike
variable {fail : σ → σ → Prop} {post : α → σ → σ → Prop} {first second third : EStateM.Result ε σ α}

theorem imp {weaker : α → σ → σ → Prop} (alike : Alike fail post first second)
    (implies : ∀ result final final', post result final final' → weaker result final final') :
    Alike fail weaker first second := by
  cases alike with
  | ok holds => exact .ok (implies _ _ _ holds)
  | error holds => exact .error holds

theorem symm (alike : Alike fail post first second)
    (swap : ∀ final final', fail final final' → fail final' final)
    (turn : ∀ result final final', post result final final' → post result final' final) :
    Alike fail post second first := by
  cases alike with
  | ok holds => exact .ok (turn _ _ _ holds)
  | error holds => exact .error (swap _ _ holds)

theorem trans (left : Alike fail post first second) (right : Alike fail post second third)
    (chain : ∀ final middle final', fail final middle → fail middle final' → fail final final')
    (link : ∀ result final middle final', post result final middle → post result middle final' →
      post result final final') :
    Alike fail post first third := by
  cases left with
  | ok before =>
    cases right with
    | ok after => exact .ok (link _ _ _ _ before after)
  | error before =>
    cases right with
    | error after => exact .error (chain _ _ _ before after)

end Alike

def Parallel (pre fail : σ → σ → Prop) (post : α → σ → σ → Prop) (first second : EStateM ε σ α) : Prop :=
  ∀ state state', pre state state' → Alike fail post (first state) (second state')

namespace Parallel
variable {pre fail : σ → σ → Prop} {post : α → σ → σ → Prop}

theorem pure {result : α} (holds : ∀ state state', pre state state' → post result state state') :
    Parallel pre fail post (Pure.pure result : EStateM ε σ α) (Pure.pure result) :=
  fun state state' related => .ok (holds state state' related)

theorem throw {failure : ε} (holds : ∀ state state', pre state state' → fail state state') :
    Parallel pre fail post (MonadExcept.throw failure : EStateM ε σ α) (MonadExcept.throw failure) :=
  fun state state' related => .error (holds state state' related)

theorem modify {f : σ → σ} {post : PUnit → σ → σ → Prop}
    (holds : ∀ state state', pre state state' → post ⟨⟩ (f state) (f state')) :
    Parallel pre fail post (modifyGet fun state => (⟨⟩, f state) : EStateM ε σ PUnit)
      (modifyGet fun state => (⟨⟩, f state)) :=
  fun state state' related => .ok (holds state state' related)

theorem bind {middle : α → σ → σ → Prop} {post : β → σ → σ → Prop} {first second : EStateM ε σ α}
    {next next' : α → EStateM ε σ β}
    (parallel : Parallel pre fail middle first second)
    (continues : ∀ result, Parallel (middle result) fail post (next result) (next' result)) :
    Parallel pre fail post (first >>= next) (second >>= next') := by
  intro state state' related
  have alike := parallel state state' related
  simp only [Bind.bind, EStateM.bind]
  generalize first state = left at alike ⊢
  generalize second state' = right at alike ⊢
  cases alike with
  | ok holds => exact continues _ _ _ holds
  | error holds => exact .error holds

theorem imp {weaker : α → σ → σ → Prop} {first second : EStateM ε σ α}
    (parallel : Parallel pre fail post first second)
    (implies : ∀ result final final', post result final final' → weaker result final final') :
    Parallel pre fail weaker first second :=
  fun state state' related => (parallel state state' related).imp implies

end Parallel
end Datashil.Library
