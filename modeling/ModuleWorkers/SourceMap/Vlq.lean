import ModuleWorkers.Encoding.Base64
import ModuleWorkers.SourceMap.Error
/-!
# Numbers of variable length

A number is written in base 64 digits of five bits each, lowest first; the sixth bit of a digit says
that another one follows. The lowest bit of the whole is the sign. `decode_encode` says that numbers
of less than 63 bits read back.
-/

namespace ModuleWorkers.Vlq

/-- Two to the number of bits that a number is read in. -/
def limit : Nat := 1 <<< 64

/-- The digits of a number without sign. -/
def digits (n : Nat) : List Char :=
  if n < 32 then [Base64.digit n] else Base64.digit (32 + n % 32) :: digits (n / 32)
termination_by n

/-- A number with its sign in the lowest bit. -/
def signed (n : Int) : Nat := 2 * n.natAbs + if n < 0 then 1 else 0

/-- The number that a number with its sign in the lowest bit stands for. -/
def unsigned (n : Nat) : Int := if n % 2 = 1 then -((n / 2 : Nat) : Int) else (n / 2 : Nat)

def encode (n : Int) : List Char := digits (signed n)

/-- Reads digits, given what was read and the place of the next bits. Bits beyond the limit are
lost, unless a whole digit would be or the sum passes the limit. -/
def decodeFrom (shift read : Nat) : List Char → Except SourceMapError (Int × List Char)
  | [] => .error .unexpectedEnd
  | c :: cs =>
    match Base64.value? c with
    | none => .error .invalidDigit
    | some d =>
      if 64 ≤ shift then .error .overflow
      else
        let sum := read + (d % 32) <<< shift % limit
        if limit ≤ sum then .error .overflow
        else if 32 ≤ d then decodeFrom (shift + 5) sum cs
        else .ok (unsigned sum, cs)

/-- Reads a number at the start of a text. -/
def decode (cs : List Char) : Except SourceMapError (Int × List Char) := decodeFrom 0 0 cs

theorem length_decodeFrom {shift read : Nat} {cs rest : List Char} {n : Int}
    (h : decodeFrom shift read cs = .ok (n, rest)) : rest.length < cs.length := by
  induction cs generalizing shift read with
  | nil => simp [decodeFrom] at h
  | cons c cs ih =>
    simp only [decodeFrom] at h
    split at h
    · simp at h
    · split at h
      · simp at h
      · split at h
        · simp at h
        · split at h
          · have := ih h; simp only [List.length_cons]; omega
          · simp only [Except.ok.injEq, Prod.mk.injEq] at h
            simp [← h.2]

theorem length_decode {cs rest : List Char} {n : Int} (h : decode cs = .ok (n, rest)) :
    rest.length < cs.length := length_decodeFrom h

theorem unsigned_signed (n : Int) : unsigned (signed n) = n := by
  unfold unsigned signed
  split <;> split <;> omega

/-- The bits of a digit and those above it. -/
theorem shiftLeft_eq_add (n shift : Nat) :
    n <<< shift = (n % 32) <<< shift + (n / 32) <<< (shift + 5) := by
  have hn : n = n % 32 + n / 32 * 32 := by omega
  rw [Nat.shiftLeft_eq, Nat.shiftLeft_eq, Nat.shiftLeft_eq, Nat.pow_add, ← Nat.mul_assoc,
    Nat.mul_right_comm, ← Nat.add_mul]
  congr 1

/-- Bits that are read are below the limit. -/
theorem lt_of_shiftLeft_lt_limit {n shift : Nat} (hn : 0 < n) (h : n <<< shift < limit) :
    shift < 64 := by
  refine Nat.lt_of_not_le fun hle => Nat.not_le_of_lt h ?_
  unfold limit
  rw [Nat.shiftLeft_eq, Nat.shiftLeft_eq]
  exact Nat.mul_le_mul hn (Nat.pow_le_pow_right (by omega) hle)

theorem decodeFrom_digits (n shift read : Nat) (rest : List Char) (hs : shift < 64)
    (hn : read + n <<< shift < limit) :
    decodeFrom shift read (digits n ++ rest) = .ok (unsigned (read + n <<< shift), rest) := by
  fun_induction digits n generalizing shift read with
  | case1 n h =>
    have hv : Base64.value? (Base64.digit n) = some n := Base64.value?_digit (by omega)
    have hm : n % 32 = n := Nat.mod_eq_of_lt h
    have hl : n <<< shift % limit = n <<< shift := Nat.mod_eq_of_lt (by omega)
    simp only [List.singleton_append, decodeFrom, hv, hm, hl, show ¬ 64 ≤ shift by omega,
      show ¬ 32 ≤ n by omega, show ¬ limit ≤ read + n <<< shift by omega, if_false]
  | case2 n h ih =>
    have hv : Base64.value? (Base64.digit (32 + n % 32)) = some (32 + n % 32) :=
      Base64.value?_digit (by omega)
    have hm : (32 + n % 32) % 32 = n % 32 := by omega
    have hsum : read + (n % 32) <<< shift + (n / 32) <<< (shift + 5) = read + n <<< shift := by
      rw [Nat.add_assoc, ← shiftLeft_eq_add]
    have hlow : read + (n % 32) <<< shift < limit :=
      Nat.lt_of_le_of_lt (Nat.le_add_right _ _) (hsum ▸ hn)
    have hhigh : (n / 32) <<< (shift + 5) < limit :=
      Nat.lt_of_le_of_lt (Nat.le_add_left _ _) (hsum ▸ hn)
    have hl : (n % 32) <<< shift % limit = (n % 32) <<< shift :=
      Nat.mod_eq_of_lt (Nat.lt_of_le_of_lt (Nat.le_add_left _ _) hlow)
    have hs' : shift + 5 < 64 := lt_of_shiftLeft_lt_limit (by omega) hhigh
    simp only [List.cons_append, decodeFrom, hv, hm, hl, show ¬ 64 ≤ shift by omega, if_false,
      Nat.not_le_of_lt hlow, show 32 ≤ 32 + n % 32 by omega, if_true]
    rw [ih _ _ hs' (hsum ▸ hn), hsum]

/-- A number reads back, whatever follows it. -/
theorem decode_encode {n : Int} (h : n.natAbs < 1 <<< 63) (rest : List Char) :
    decode (encode n ++ rest) = .ok (n, rest) := by
  have hs : signed n < limit := by
    unfold signed limit
    split <;> omega
  have := decodeFrom_digits (signed n) 0 0 rest (by omega) (by rwa [Nat.shiftLeft_zero, Nat.zero_add])
  rw [Nat.shiftLeft_zero, Nat.zero_add, unsigned_signed] at this
  exact this

end ModuleWorkers.Vlq
