import Stigmergy.Fault
import Stigmergy.Random.Source
import Stigmergy.Scalar

/-!
# Uniform draws

* `below`: a number below a bound, from the high half of word times bound. When the low half says
  that the drawn word stands on an edge between two results, a second word decides.
* `fraction`: a scalar from zero up to one, in steps of `2 ^ -52`.
* `threshold`: a fraction of a positive finite total.
-/

namespace Stigmergy.Random

variable {α G : Type} [Scalar α] [WordSource G]

/-- The result for the bound `n` from a word below `size` and, where needed, the next one. -/
def scaled (size n : Nat) (draw : G → Nat × G) (g : G) : Nat × G :=
  let (word, g) := draw g
  let product := word * n
  let (high, low) := (product / size, product % size)
  if size - n < low then
    let (word, g) := draw g
    (high + (low + word * n / size) / size, g)
  else (high, g)

omit [WordSource G] in
theorem scaled_lt {size n : Nat} {draw : G → Nat × G} (hdraw : ∀ g, (draw g).1 < size)
    (hn : 0 < n) (g : G) : (scaled size n draw g).1 < n := by
  have below (w : Nat) (hw : w < size) : w * n / size < n :=
    Nat.div_lt_of_lt_mul (Nat.mul_lt_mul_of_pos_right hw hn)
  have split := Nat.div_add_mod ((draw g).1 * n) size
  have most : ((draw g).1 + 1) * n ≤ size * n := Nat.mul_le_mul_right n (hdraw g)
  rw [Nat.succ_mul] at most
  simp only [scaled]
  split
  · have carry := below _ (hdraw (draw g).2)
    have hsize : 0 < size := Nat.zero_lt_of_lt (hdraw g)
    rw [Nat.add_comm, ← Nat.add_mul_div_left _ _ hsize]
    apply Nat.div_lt_of_lt_mul
    omega
  · exact below _ (hdraw g)

/-- A number below `n`, for `0 < n < 2 ^ 64`: from words of 32 bits when the bound has no more,
else from words of 64. -/
def below (n : Nat) (g : G) : Nat × G :=
  if n < 1 <<< 32 then
    scaled (1 <<< 32) n (fun g => let (w, g) := WordSource.next32 g; (w.toNat, g)) g
  else
    scaled (1 <<< 64) n (fun g => let (w, g) := WordSource.next64 g; (w.toNat, g)) g

theorem below_lt {n : Nat} (hn : 0 < n) (g : G) : (below n g).1 < n := by
  unfold below
  split
  · exact scaled_lt (fun g => (WordSource.next32 g).1.toNat_lt) hn g
  · exact scaled_lt (fun g => (WordSource.next64 g).1.toNat_lt) hn g

/-- A scalar at least zero and below one, from the upper 52 bits of a word. -/
def fraction (g : G) : α × G :=
  let (word, g) := WordSource.next64 g
  (Scalar.ofNat (word >>> 12).toNat / Scalar.ofNat (1 <<< 52), g)

/-- A scalar from zero up to the total, which has to be positive and finite. -/
def threshold (total : α) (g : G) : Except Fault α × G :=
  if Scalar.ofNat 0 < total ∧ Scalar.isFinite total then
    let (part, g) := fraction g
    (.ok (part * total), g)
  else (.error .emptyRange, g)

end Stigmergy.Random
