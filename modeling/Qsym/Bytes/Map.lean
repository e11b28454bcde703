import Mathlib.Data.List.Basic
import Mathlib.Data.Nat.Digits.Lemmas
import Mathlib.Logic.Function.Basic

/-!
# Qsym.Bytes.Map

A **little-endian map**: addresses `A` with the byte last written to each, as a
function of an assignment `I`. A number is stored byte by byte, the lowest at the
first address, and read back together with the bytes of a memory below it where the
map has none. Nothing here depends on what the addresses are.
-/

namespace Bytes

/-- The number with the given bytes, the lowest first. -/
def littleEndian : List Nat → Nat
  | [] => 0
  | b :: bs => b + 256 * littleEndian bs

/-- Byte `i` of a number. -/
def byte (n i : Nat) : Nat :=
  n / 2 ^ (i * 8) % 2 ^ 8

/-- Putting the bytes together from the highest down. -/
theorem foldr_eq_littleEndian (bs : List Nat) :
    bs.foldr (fun b n => n * 256 + b) 0 = littleEndian bs := by
  induction bs with
  | nil => rfl
  | cons b bs ih => rw [List.foldr_cons, ih, littleEndian, Nat.mul_comm, Nat.add_comm]

/-- The bytes of a number from byte `i` on. -/
theorem littleEndian_bytes (n i k : Nat) :
    littleEndian ((List.range' i k).map (byte n)) = n / 2 ^ (i * 8) % 2 ^ (k * 8) := by
  induction k generalizing i with
  | zero => simp [littleEndian, Nat.mod_one]
  | succ k ih =>
      have hnext : n / 2 ^ ((i + 1) * 8) = n / 2 ^ (i * 8) / 2 ^ 8 := by
        rw [Nat.div_div_eq_div_mul, ← Nat.pow_add, Nat.add_mul, Nat.one_mul]
      rw [List.range'_succ, List.map_cons, littleEndian, ih, hnext, byte,
        show (k + 1) * 8 = 8 + k * 8 by omega, Nat.pow_add, Nat.mod_mul]

/-- The bytes below a cut are kept. -/
theorem byte_mod (n : Nat) {i m : Nat} (hi : i < m) : byte (n % 2 ^ (m * 8)) i = byte n i := by
  have hsplit : 2 ^ (m * 8) = 2 ^ (i * 8) * 2 ^ ((m - i) * 8) := by
    rw [← Nat.pow_add, ← Nat.add_mul, Nat.add_sub_cancel' hi.le]
  rw [byte, byte, hsplit, Nat.mod_mul_right_div_self]
  exact Nat.mod_mod_of_dvd _ (Nat.pow_dvd_pow 2 (by omega))

/-- A number has only one list of bytes of a given length. -/
theorem littleEndian_inj {bs cs : List Nat} (h : List.Forall₂ (fun b c => b < 256 ∧ c < 256) bs cs)
    (he : littleEndian bs = littleEndian cs) : bs = cs := by
  induction h with
  | nil => rfl
  | @cons b c bs cs hbc _ ih =>
      rw [littleEndian, littleEndian] at he
      obtain rfl : b = c := by omega
      rw [ih (by omega)]

/-- The bytes of a number put together are those it was put together from. -/
theorem byte_littleEndian {bs : List Nat} (h : ∀ b ∈ bs, b < 256) {i : Nat} (hi : i < bs.length) :
    byte (littleEndian bs) i = bs[i] := by
  induction bs generalizing i with
  | nil => cases hi
  | cons b bs ih =>
      obtain ⟨hb, hbs⟩ := List.forall_mem_cons.1 h
      cases i with
      | zero =>
          simp only [byte, littleEndian, List.getElem_cons_zero, Nat.zero_mul,
            pow_zero, Nat.div_one]
          omega
      | succ i =>
          have hnext : (b + 256 * littleEndian bs) / 2 ^ ((i + 1) * 8) =
              littleEndian bs / 2 ^ (i * 8) := by
            rw [show (i + 1) * 8 = 8 + i * 8 by omega, Nat.pow_add, ← Nat.div_div_eq_div_mul]
            congr 1
            omega
          rw [byte, littleEndian, hnext]
          exact ih hbs (Nat.lt_of_succ_lt_succ hi)

/-- What each address was last written, if anything. -/
abbrev Map (A I : Type) := A → Option (I → Nat)

namespace Map

variable {A I : Type} [DecidableEq A]

/-- Store the bytes of `N` from byte `i` on. -/
def store (N : I → Nat) : Nat → List A → Map A I → Map A I
  | _, [], m => m
  | i, a :: as, m => store N (i + 1) as (Function.update m a (some fun ρ => byte (N ρ) i))

/-- Forget what was written. -/
def erase : List A → Map A I → Map A I
  | [], m => m
  | a :: as, m => erase as (Function.update m a none)

/-- The byte at `a`: the one written last, or the one `memory` holds. -/
def byteAt (m : Map A I) (memory : A → Nat) (ρ : I) (a : A) : Nat :=
  match m a with
  | some f => f ρ
  | none => memory a

/-- The number at the addresses `as`. -/
def read (m : Map A I) (memory : A → Nat) (as : List A) (ρ : I) : Nat :=
  littleEndian (as.map (m.byteAt memory ρ))

/-- A byte there is was there before or is one of the bytes stored. -/
theorem store_eq_some {N : I → Nat} {i : Nat} {as : List A} {m : Map A I} {a : A} {f : I → Nat}
    (h : store N i as m a = some f) : m a = some f ∨ ∃ j, f = fun ρ => byte (N ρ) j := by
  induction as generalizing i m with
  | nil => exact .inl h
  | cons b as ih =>
      obtain h | h := ih h
      · by_cases hab : a = b
        · subst hab
          rw [Function.update_self] at h
          exact .inr ⟨i, (Option.some.inj h).symm⟩
        · rw [Function.update_of_ne hab] at h
          exact .inl h
      · exact .inr h

theorem erase_apply (as : List A) (m : Map A I) (a : A) :
    erase as m a = if a ∈ as then none else m a := by
  induction as generalizing m with
  | nil => rfl
  | cons b as ih =>
      rw [erase, ih]
      by_cases hab : a = b
      · subst hab
        simp
      · simp [hab]

end Map

end Bytes
