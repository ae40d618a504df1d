import ThresholdKeys.Proofs.Entropy.Draws

/-!
# A source gives what it is asked for

A read hands out at most as many octets as it is asked for, and a blocking read that succeeds hands
out exactly as many (`Source.length_mustRead`): every round of `fill` takes off what is still
needed, and the output of a pool is cut from whole blocks of the hash.

`Source.Delivers` is what a source hands out when it is asked again and again.
-/

namespace ThresholdKeys

/-! ## The output of a pool -/

theorem Blake3.Node.length_outputBlocks (node : Node) (blocks counter : Nat) :
    (node.outputBlocks blocks counter).length = 64 * blocks := by
  induction blocks generalizing counter with
  | zero => rfl
  | succ blocks ih =>
    rw [outputBlocks, List.length_append, Square.length_toBytes, ih]
    omega

@[simp] theorem length_blake3Derived (context material : Bytes) (len : Nat) :
    (blake3Derived context material len).length = len := by
  rw [blake3Derived, Blake3.Node.output, List.length_take, Blake3.Node.length_outputBlocks]
  omega

/-- Whatever a pool answers to a request has the length that was asked for. -/
theorem length_answerRequest {p p' : Pool} {n : Nat} {g : Gathering} {output : Bytes}
    (h : answerRequest p n g = (.ok output, p')) : output.length = n := by
  unfold answerRequest at h
  split at h
  · cases h
    exact length_blake3Derived ..
  all_goals cases h

/-! ## Reads -/

theorem Device.length_read_le {d : Device} {n : Nat} {piece : Bytes}
    (h : (d.read n).1 = .ok piece) : piece.length ≤ n := by
  unfold Device.read at h
  split at h
  · cases h
    exact List.length_take_le ..
  · cases h

theorem length_readPool {p : Pool} {n : Nat} {output : Bytes} (h : (readPool p n).1 = .ok output) :
    output.length = n := by
  obtain ⟨live, absorbed, drained, requests⟩ := p
  rw [readPool] at h
  split at h
  · cases h
  · exact length_answerRequest (Prod.ext h rfl)

namespace Source

/-- A read hands out no more than it is asked for. -/
theorem length_read_le {s : Source} {n : Nat} {piece : Bytes} (h : (s.read n).1 = .ok piece) :
    piece.length ≤ n := by
  cases s with
  | custom buffer closed =>
    rw [read] at h
    split at h
    · cases h
    · cases h
      exact List.length_take_le ..
  | seeded g =>
    rw [read] at h
    cases h
    exact List.length_take_le ..
  | file handle finite =>
    rw [read] at h
    cases handle with
    | file unread =>
      cases h
      exact List.length_take_le ..
    | directory => cases h
    | closed => cases h
  | os supply closed =>
    rw [read] at h
    split at h
    · cases h
    · cases h
      exact Nat.le_of_eq (Supply.length_take supply n)
  | device d =>
    rw [read] at h
    exact Device.length_read_le h
  | pool p =>
    rw [read] at h
    exact Nat.le_of_eq (length_readPool h)

/-- The loop that fills up ends with what it had and what it needed. -/
theorem length_fill {finite : Bool} {rounds need : Nat} {s s' : Source} {written b : Bytes}
    (h : fill read finite rounds s need written = ⟨.ok (), b, s'⟩) :
    b.length = written.length + need := by
  fun_induction fill read finite rounds s need written with
  | case1 =>
    cases h
    rfl
  | case2 => cases h
  | case3 => cases h
  | case4 _ _ _ _ _ _ _ ih => exact ih h
  | case5 rounds s need written piece s₁ _ hread ih =>
    have hle := length_read_le (congrArg Prod.fst hread)
    have hlength := ih h
    rw [List.length_append] at hlength
    omega
  | case6 => cases h
  | case7 => cases h
  | case8 => cases h

/-- **A blocking read that succeeds hands out exactly what it is asked for.** -/
theorem length_mustRead {s s' : Source} {k n : Nat} {b : Bytes}
    (h : s.mustRead k n = ⟨.ok (), b, s'⟩) : b.length = n := by
  cases s with
  | pool p =>
    obtain ⟨live, absorbed, drained, requests⟩ := p
    rw [mustRead, mustReadPool] at h
    split at h
    · cases h
    · split at h
      · next hanswer =>
        cases h
        exact length_answerRequest hanswer
      all_goals cases h
  | _ =>
    rw [mustRead] at h
    simpa using length_fill h

/-! ## Successive reads -/

/-- Asked for `len` octets again and again, the source `s` hands out these blocks and is `s'`
then. -/
def Delivers (k len : Nat) : (s : Source) → List Bytes → (s' : Source) → Prop
  | s, [], s' => s = s'
  | s, block :: rest, s' =>
    ∃ s₁, s.mustRead k len = ⟨.ok (), block, s₁⟩ ∧ Delivers k len s₁ rest s'

variable {k len : Nat} {s s' : Source}

theorem delivers_append {blocks rest : List Bytes} :
    Delivers k len s (blocks ++ rest) s' ↔
      ∃ s₁, Delivers k len s blocks s₁ ∧ Delivers k len s₁ rest s' := by
  induction blocks generalizing s with
  | nil => simp [Delivers]
  | cons block blocks ih =>
    simp only [List.cons_append, Delivers, ih]
    constructor
    · rintro ⟨s₁, hread, s₂, hblocks, hrest⟩
      exact ⟨s₂, ⟨s₁, hread, hblocks⟩, hrest⟩
    · rintro ⟨s₂, ⟨s₁, hread, hblocks⟩, hrest⟩
      exact ⟨s₁, hread, s₂, hblocks, hrest⟩

theorem Delivers.length_eq {blocks : List Bytes} (h : Delivers k len s blocks s') :
    ∀ block ∈ blocks, block.length = len := by
  induction blocks generalizing s with
  | nil => simp
  | cons block rest ih =>
    obtain ⟨s₁, hread, hrest⟩ := h
    rw [List.forall_mem_cons]
    exact ⟨length_mustRead hread, ih hrest⟩

end Source

end ThresholdKeys
