import Brainfuck.Op

/-!
# The closed form of a text without loops

Where the pointer stands, what a cell holds and what has been printed after the first positions of a
text that has no brackets, said by counting characters and without any machine: `drift`, `cellAt`
and `printed`. The lemmas say what one more position adds to each.
-/

namespace Brainfuck

namespace StraightLine

variable {source : List Char} {input : List UInt8} {ch : Char} {c k lo : Nat}

/-- How far the first `k` positions move the pointer to the right. -/
def drift (source : List Char) (k : Nat) : Int :=
  (source.take k).count '>' - (source.take k).count '<'

/-- The position `j` holds this character, and the pointer is at cell `c` when it is reached. -/
def At (source : List Char) (ch : Char) (c j : Nat) : Prop :=
  source[j]? = some ch ∧ drift source j = c

instance (source : List Char) (ch : Char) (c j : Nat) : Decidable (At source ch c j) :=
  inferInstanceAs (Decidable (_ ∧ _))

/-- The last of the first `k` positions at which a `,` stores a byte in cell `c`. -/
def lastRead? (source : List Char) (c k : Nat) : Option Nat :=
  (List.range k).reverse.find? fun j => At source ',' c j

/-- How often the character is carried out at cell `c`, of the positions from `lo` up to `k`. -/
def times (source : List Char) (ch : Char) (c lo k : Nat) : Nat :=
  (List.range k).countP fun j => lo ≤ j ∧ At source ch c j

/-- The byte for the `,` at position `j`: there is one for each. -/
def byteFor (source : List Char) (input : List UInt8) (j : Nat) : UInt8 :=
  input.getD ((source.take j).count ',') 0

/-- What cell `c` holds after the first `k` positions: modulo 256, the byte that was stored there
last, or 0 if none was, with what `+` has added and without what `-` has taken since. -/
def cellAt (source : List Char) (input : List UInt8) (c k : Nat) : UInt8 :=
  let last := lastRead? source c k
  let start := last.elim 0 (· + 1)
  .ofInt ((last.elim 0 (byteFor source input)).toNat + times source '+' c start k -
    times source '-' c start k)

/-- What the first `k` positions print: for each `.` the cell that the pointer is at. -/
def printed (source : List Char) (input : List UInt8) (k : Nat) : List UInt8 :=
  (List.range k).filterMap fun j =>
    if source[j]? = some '.' then some (cellAt source input (drift source j).toNat j) else none

/-- What a character makes of the cell that it is carried out at; the byte is the one for a `,`. -/
def onCell (ch : Char) (byte cell : UInt8) : UInt8 :=
  if ch = ',' then byte else cell + (if ch = '+' then 1 else 0) - (if ch = '-' then 1 else 0)

@[simp] theorem drift_zero (source : List Char) : drift source 0 = 0 := rfl

@[simp] theorem cellAt_zero (source : List Char) (input : List UInt8) (c : Nat) :
    cellAt source input c 0 = 0 := rfl

/-! ## One more position -/

theorem forall_le_succ_iff {good : Nat → Prop} :
    (∀ j ≤ k + 1, good j) ↔ (∀ j ≤ k, good j) ∧ good (k + 1) := by
  constructor
  · intro h
    exact ⟨fun j hj => h j (Nat.le_succ_of_le hj), h _ (Nat.le_refl _)⟩
  · rintro ⟨h, hlast⟩ j hj
    rcases Nat.le_succ_iff.mp hj with hle | rfl
    · exact h j hle
    · exact hlast

/-- What is the case at the beginning and not at all positions ceases between two of them. -/
theorem exists_last_good {good : Nat → Prop} {n : Nat} (hzero : good 0) (h : ¬ ∀ j ≤ n, good j) :
    ∃ k < n, (∀ j ≤ k, good j) ∧ ¬ ∀ j ≤ k + 1, good j := by
  induction n with
  | zero =>
    refine absurd (fun j hj => ?_) h
    rwa [Nat.le_zero.mp hj]
  | succ n ih =>
    by_cases hn : ∀ j ≤ n, good j
    · exact ⟨n, Nat.lt_succ_self n, hn, h⟩
    · obtain ⟨k, hk, hrest⟩ := ih hn
      exact ⟨k, Nat.lt_succ_of_lt hk, hrest⟩

theorem count_take_succ (source : List Char) (ch : Char) (k : Nat) :
    (source.take (k + 1)).count ch =
      (source.take k).count ch + if source[k]? = some ch then 1 else 0 := by
  rw [List.take_add_one, List.count_append]
  congr 1
  cases source[k]? with
  | none => rfl
  | some ch' => simp [List.count_singleton]

theorem drift_succ (source : List Char) (k : Nat) :
    drift source (k + 1) = drift source k +
      ((if source[k]? = some '>' then 1 else 0) - (if source[k]? = some '<' then 1 else 0)) := by
  rw [drift, drift, count_take_succ, count_take_succ]
  push_cast
  split <;> split <;> omega

theorem drift_succ_right (h : source[k]? = some '>') :
    drift source (k + 1) = drift source k + 1 := by
  simp [drift_succ, h]

theorem drift_succ_left (h : source[k]? = some '<') :
    drift source (k + 1) = drift source k - 1 := by
  simp [drift_succ, h]
  omega

theorem drift_succ_stay (hright : source[k]? ≠ some '>') (hleft : source[k]? ≠ some '<') :
    drift source (k + 1) = drift source k := by
  simp [drift_succ, hright, hleft]

theorem lastRead?_succ (source : List Char) (c k : Nat) :
    lastRead? source c (k + 1) = if At source ',' c k then some k else lastRead? source c k := by
  rw [lastRead?, List.range_succ, List.reverse_append, List.reverse_singleton,
    List.singleton_append, List.find?_cons]
  by_cases h : At source ',' c k <;> simp [h, lastRead?]

theorem start_le (source : List Char) (c k : Nat) :
    (lastRead? source c k).elim 0 (· + 1) ≤ k := by
  cases h : lastRead? source c k with
  | none => exact Nat.zero_le k
  | some j =>
    have hmem := List.mem_of_find?_eq_some h
    exact List.mem_range.mp (List.mem_reverse.mp hmem)

theorem times_succ (h : lo ≤ k) : times source ch c lo (k + 1) =
    times source ch c lo k + if At source ch c k then 1 else 0 := by
  rw [times, List.range_succ, List.countP_append, times]
  simp [List.countP_singleton, h]

/-- Nothing is counted from the position on that one has come to. -/
theorem times_self (source : List Char) (ch : Char) (c k : Nat) : times source ch c k k = 0 := by
  rw [times, List.countP_eq_zero]
  intro j hj
  have hlt := List.mem_range.mp hj
  simp only [decide_eq_true_eq]
  omega

theorem ofInt_toNat (value : UInt8) : UInt8.ofInt value.toNat = value := by
  have hlt := value.toNat_lt
  rw [UInt8.ofInt, Int.emod_eq_of_lt (by omega) (by omega), Int.toNat_natCast, UInt8.ofNat_toNat]

theorem ofInt_sub (x y : Int) : UInt8.ofInt (x - y) = UInt8.ofInt x - UInt8.ofInt y := by
  rw [Int.sub_eq_add_neg, UInt8.ofInt_add, UInt8.ofInt_neg, UInt8.sub_eq_add_neg]

/-- A `,` stores its byte in the cell that the pointer is at. -/
theorem cellAt_succ_read (h : At source ',' c k) :
    cellAt source input c (k + 1) = byteFor source input k := by
  have hlast : lastRead? source c (k + 1) = some k := by rw [lastRead?_succ, if_pos h]
  simp [cellAt, hlast, times_self, ofInt_toNat]

/-- Every other character adds to the cell or takes from it what it counts there. -/
theorem cellAt_succ (h : ¬ At source ',' c k) :
    cellAt source input c (k + 1) = cellAt source input c k +
      (if At source '+' c k then 1 else 0) - (if At source '-' c k then 1 else 0) := by
  have hlast : lastRead? source c (k + 1) = lastRead? source c k := by
    rw [lastRead?_succ, if_neg h]
  have hstart := start_le source c k
  have hbit : ∀ p : Prop, ∀ [Decidable p],
      UInt8.ofInt ((if p then 1 else 0 : Nat) : Int) = if p then 1 else 0 := by
    intro p _
    split <;> rfl
  unfold cellAt
  simp only [hlast, times_succ hstart]
  rw [← hbit (At source '+' c k), ← hbit (At source '-' c k), ← UInt8.ofInt_add, ← ofInt_sub]
  congr 1
  push_cast
  omega

theorem printed_succ (source : List Char) (input : List UInt8) (k : Nat) :
    printed source input (k + 1) = printed source input k ++
      if source[k]? = some '.' then [cellAt source input (drift source k).toNat k] else [] := by
  rw [printed, List.range_succ, List.filterMap_append, printed]
  split <;> simp [*]

/-! ## At a position -/

theorem onCell_read (byte : UInt8) : onCell ',' byte = fun _ => byte := rfl

theorem onCell_increment (byte : UInt8) : onCell '+' byte = (· + 1) := by
  funext cell
  simp [onCell]

theorem onCell_decrement (byte : UInt8) : onCell '-' byte = (· - 1) := by
  funext cell
  simp [onCell]

theorem onCell_other (hread : ch ≠ ',') (hadd : ch ≠ '+') (htake : ch ≠ '-') (byte : UInt8) :
    onCell ch byte = id := by
  funext cell
  simp [onCell, hread, hadd, htake]

variable {ch' : Char} {pointer : Nat}

/-- At each position one character is carried out, at one cell. -/
theorem at_iff (hch : source[k]? = some ch) (hpointer : drift source k = pointer) :
    At source ch' c k ↔ ch = ch' ∧ pointer = c := by
  rw [At, hch, hpointer, Option.some.injEq, Int.natCast_inj]

theorem cellAt_succ_eq (hch : source[k]? = some ch) (hpointer : drift source k = pointer) :
    cellAt source input c (k + 1) =
      if pointer = c then onCell ch (byteFor source input k) (cellAt source input c k)
      else cellAt source input c k := by
  have here : ∀ {ch'}, At source ch' c k ↔ ch = ch' ∧ pointer = c := at_iff hch hpointer
  by_cases hread : At source ',' c k
  · obtain ⟨rfl, rfl⟩ := here.mp hread
    rw [cellAt_succ_read hread, if_pos rfl, onCell, if_pos rfl]
  · rw [cellAt_succ hread]
    rw [here] at hread
    by_cases hc : pointer = c
    · have hne : ch ≠ ',' := fun heq => hread ⟨heq, hc⟩
      simp only [here, hc, onCell, if_neg hne, and_true, if_true]
    · simp [here, hc]

end StraightLine

end Brainfuck
