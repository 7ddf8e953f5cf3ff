import Datashil.Proofs.RepeatedKeys

/-! Whatever the sizes asked for, the calls that read a stream return one piece of the payload after
the other, and the stream tells what is left. -/

namespace Datashil
open Library BTree

namespace PayloadStream

/-- How much each call returns: what it is asked for, or all that is left. -/
def pieceSizes : List Nat → (left : Nat) → List Nat
  | [], _ => []
  | n :: sizes, left => min n left :: pieceSizes sizes (left - min n left)

structure Reads (stream : PayloadStream) (st : BTree) (buffer : List Byte) : Prop where
  calls : ∀ sizes : List Nat, Ran (stream.nextAll sizes) st fun result _ =>
    result.1.flatten <+: buffer ∧ result.1.map List.length = pieceSizes sizes buffer.length ∧
      result.2.payloadRemaining = buffer.length - result.1.flatten.length ∧
        (result.2.isEOF = true ↔ result.1.flatten = buffer)
  ends : ∀ n turns, 1 ≤ n → buffer.length ≤ turns → Ran (stream.drain (.replicate turns n)) st fun result _ =>
    result.1 = buffer ∧ result.2.isEOF = true

variable {st : BTree} {stream : PayloadStream} {bytes : List Byte}

theorem nextAll_spec (sizes : List Nat) (yields : Yields st.pages st.newPageOffsetIndex stream bytes) :
    Ran (nextAll sizes stream) st fun result st' => st.Agrees st' ∧
      result.1.map List.length = pieceSizes sizes bytes.length ∧
      ∃ rest, bytes = result.1.flatten ++ rest ∧ Yields st.pages st.newPageOffsetIndex result.2 rest := by
  induction sizes generalizing st stream bytes with
  | nil =>
    rw [nextAll, ran_pure]
    exact ⟨.refl st, rfl, bytes, rfl, yields⟩
  | cons n sizes ih =>
    rw [nextAll, ran_bind]
    apply (nextBytes_spec yields n).imp
    rintro ⟨piece, next⟩ st' ⟨agrees, rfl, after⟩
    rw [← agrees.pages, ← agrees.counter] at after
    rw [ran_bind]
    apply (ih after).imp
    rintro ⟨pieces, last⟩ st'' ⟨agrees', lengths, rest, split, yields⟩
    rw [agrees.pages, agrees.counter] at yields
    have left : bytes.length - n = bytes.length - min n bytes.length := by omega
    rw [ran_pure]
    refine ⟨agrees.trans agrees', ?_, rest, ?_, yields⟩
    · rw [List.map_cons, lengths, List.length_take, List.length_drop, left]
      rfl
    · rw [List.flatten_cons, List.append_assoc, ← split, List.take_append_drop]

theorem Yields.reads (yields : Yields st.pages st.newPageOffsetIndex stream bytes) :
    stream.Reads st bytes := by
  constructor
  · intro sizes
    apply (nextAll_spec sizes yields).imp
    rintro ⟨pieces, last⟩ st' ⟨-, lengths, rest, rfl, left⟩
    have total := left.total
    refine ⟨List.prefix_append .., lengths, ?_, left.isEOF.trans ?_⟩
    · rw [payloadRemaining, List.length_append]
      omega
    · exact List.self_eq_append_right.symm
  · intro n turns least enough
    have sum : (List.replicate turns n).sum = turns * n := List.sum_replicate_nat
    have enough : bytes.length ≤ (List.replicate turns n).sum := by
      rw [sum]
      exact Nat.le_trans enough (Nat.le_mul_of_pos_right turns least)
    exact (drain_spec _ yields enough).imp fun _ _ drained => drained.2

end PayloadStream

/-- In every history, the stream of a present key reads the buffer that was stored for it. Where keys
are inserted again, it reads one of the buffers with the key, as long as these stay in one leaf. -/
theorem stored_payload_streams :
    (∀ operations, Fresh .empty operations → Ran (run operations) bootstrapped fun _ st => Addressable st →
      ∀ key buffer, Contents.empty.applyAll operations key = some buffer →
        Ran (search key) st fun stream st' => stream.Reads st' buffer) ∧
    ∀ operations st, Reaches KeepsTogether operations st → Addressable st → ∀ key,
      0 < remaining key operations →
      ∃ buffer, .insert buffer key ∈ operations ∧ Ran (search key) st fun stream st' =>
        stream.Reads st' buffer := by
  constructor
  · intro operations fresh
    apply (run_keeps operations fresh).imp
    rintro - st ⟨h, tree, keeps⟩ addressable key buffer present
    apply (search_keeps keeps key).imp
    rintro stream st' ⟨agrees, -, yields⟩
    have yields := yields (.inr addressable)
    rw [present, ← agrees.pages, ← agrees.counter] at yields
    exact yields.reads
  · intro operations st reaches addressable key some
    obtain ⟨keyed, h, tree, payloads, stores, bag⟩ := reaches_bag reaches
    obtain ⟨stream, st', searched, found⟩ := bag.searched keyed stores key
    cases found with
    | inl missed => exact absurd missed.1 (Nat.ne_of_gt some)
    | inr found =>
      obtain ⟨-, buffer, member, same, yields⟩ := found
      obtain ⟨other, inserted⟩ := bag.inserted member
      obtain rfl : other = key := (keyed buffer other inserted).symm.trans same
      exact ⟨buffer, inserted, stream, st', searched, (yields addressable).reads⟩

end Datashil
