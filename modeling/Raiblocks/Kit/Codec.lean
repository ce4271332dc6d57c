import Raiblocks.Kit.Bytes

set_option autoImplicit false

namespace Kit

-- A reader takes a value off a stream. It undoes the writer on the valid values, and
-- what it takes is what the writer writes for the value it returns.
structure Inverts {α : Type} (read : Bytes → Option (α × Bytes)) (write : α → Bytes) (valid : α → Prop) : Prop where
  complete : ∀ a rest, valid a → read (write a ++ rest) = some (a, rest)
  exact : ∀ stream a rest, read stream = some (a, rest) → valid a ∧ stream = write a ++ rest

theorem inverts_cut {α : Type} {read : Bytes → Option (α × Bytes)} {write : α → Bytes} {valid : α → Prop}
    (inverts : Inverts read write valid) (a : α) (front missing : Bytes) (whole : front ++ missing = write a) (nonempty : missing ≠ [])
    (holds : valid a) : read front = none := by
  cases got : read front with
  | none => rfl
  | some out =>
      obtain ⟨other, rest⟩ := out
      obtain ⟨proper, same⟩ := inverts.exact front other rest got
      -- The longer stream would be read in two ways.
      have first := inverts.complete other (rest ++ missing) proper
      have second := inverts.complete a [] holds
      rw [List.append_nil, ← whole, same, List.append_assoc, first] at second
      have left := congrArg Prod.snd (Option.some.inj second)
      exact absurd (List.append_eq_nil_iff.mp left).2 nonempty

theorem inverts_agree {α : Type} {read read' : Bytes → Option (α × Bytes)} {write : α → Bytes} {valid : α → Prop}
    (first : Inverts read write valid) (second : Inverts read' write valid) (stream : Bytes) : read stream = read' stream := by
  cases got : read stream with
  | some out =>
      obtain ⟨proper, same⟩ := first.exact stream out.1 out.2 got
      rw [same, second.complete out.1 out.2 proper]
  | none =>
      cases other : read' stream with
      | none => rfl
      | some out =>
          obtain ⟨proper, same⟩ := second.exact stream out.1 out.2 other
          rw [same, first.complete out.1 out.2 proper] at got
          contradiction

theorem read_word_inverts (n w : Nat) (width : w = 8 * n) : Inverts (readWord n w) (wordBytes n) fun _ => True := by
  refine ⟨fun x rest _ => read_word_written n w x rest width, ?_⟩
  intro stream x rest got
  unfold readWord at got
  split at got
  · next enough =>
      have taken : (stream.take n).length = n := List.length_take_of_le enough
      have back := word_bytes_bytes_word w (stream.take n) (by rw [taken, width])
      rw [taken] at back
      obtain ⟨rfl, rfl⟩ := Prod.mk.inj (Option.some.inj got)
      exact ⟨trivial, by rw [back, List.take_append_drop]⟩
  · cases got

theorem read_word_le_inverts (n w : Nat) (width : w = 8 * n) : Inverts (readWordLE n w) (wordBytesLE n) fun _ => True := by
  refine ⟨fun x rest _ => read_word_le_written n w x rest width, ?_⟩
  intro stream x rest got
  unfold readWordLE at got
  split at got
  · next enough =>
      have taken : (stream.take n).reverse.length = n := by rw [List.length_reverse, List.length_take_of_le enough]
      have back := word_bytes_bytes_word w (stream.take n).reverse (by rw [taken, width])
      rw [taken] at back
      obtain ⟨rfl, rfl⟩ := Prod.mk.inj (Option.some.inj got)
      exact ⟨trivial, by rw [wordBytesLE, back, List.reverse_reverse, List.take_append_drop]⟩
  · cases got

end Kit
