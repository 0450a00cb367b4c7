import Mathlib.Algebra.Group.Nat.Defs
import Mathlib.Data.List.Basic

/-! Base32 without padding. The bits of the bytes, highest first, are cut into groups of five, the last one filled up
with zeros, and each group is a letter. Decoding gives the bytes back: the bits that fill the last group are less
than a byte. -/

namespace Base32

/-- The low `w` bits of a number, the highest first. -/
def bits : Nat → Nat → List Bool
  | 0, _ => []
  | w + 1, n => n.testBit w :: bits w n

def ofBits : List Bool → Nat
  | [] => 0
  | b :: bs => 2 ^ bs.length * b.toNat + ofBits bs

@[simp] theorem length_bits (w n : Nat) : (bits w n).length = w := by
  induction w with
  | zero => rfl
  | succ w ih => rw [bits, List.length_cons, ih]

theorem ofBits_lt (bs : List Bool) : ofBits bs < 2 ^ bs.length := by
  induction bs with
  | nil => exact Nat.one_pos
  | cons b bs ih =>
      have hb : 2 ^ bs.length * b.toNat ≤ 2 ^ bs.length * 1 := Nat.mul_le_mul_left _ b.toNat_le
      rw [ofBits, List.length_cons, Nat.pow_succ]
      omega

theorem ofBits_bits (w n : Nat) : ofBits (bits w n) = n % 2 ^ w := by
  induction w with
  | zero => rw [Nat.pow_zero, Nat.mod_one, bits, ofBits]
  | succ w ih => rw [bits, ofBits, length_bits, ih, Nat.toNat_testBit, Nat.mod_pow_succ, Nat.add_comm]

theorem bits_congr {w n m : Nat} (h : ∀ i < w, n.testBit i = m.testBit i) : bits w n = bits w m := by
  induction w with
  | zero => rfl
  | succ w ih => rw [bits, bits, h w (Nat.lt_succ_self w), ih fun i hi => h i (Nat.lt_succ_of_lt hi)]

theorem bits_ofBits (bs : List Bool) : bits bs.length (ofBits bs) = bs := by
  induction bs with
  | nil => rfl
  | cons b bs ih =>
      have hlow : bits bs.length (ofBits (b :: bs)) = bits bs.length (ofBits bs) := by
        refine bits_congr fun i hi => ?_
        rw [ofBits, Nat.testBit_two_pow_mul_add _ (ofBits_lt bs), if_pos hi]
      have hhigh : (ofBits (b :: bs)).testBit bs.length = b := by
        rw [ofBits, Nat.testBit_two_pow_mul_add _ (ofBits_lt bs), if_neg (Nat.lt_irrefl _), Nat.sub_self]
        cases b with
        | false => rfl
        | true => rfl
      rw [List.length_cons, bits, hlow, hhigh, ih]

/-- The first `k` groups of `n`. -/
def split {α : Type} (n : Nat) : Nat → List α → List (List α)
  | 0, _ => []
  | k + 1, xs => xs.take n :: split n k (xs.drop n)

section Groups

variable {α : Type} {n k : Nat} {xs : List α}

@[simp] theorem length_split : (split n k xs).length = k := by
  induction k generalizing xs with
  | zero => rfl
  | succ k ih => rw [split, List.length_cons, ih]

theorem length_of_mem_split {ys : List α} (h : n * k ≤ xs.length) (hys : ys ∈ split n k xs) : ys.length = n := by
  induction k generalizing xs with
  | zero => cases hys
  | succ k ih =>
      rw [Nat.mul_succ] at h
      rcases List.mem_cons.mp hys with rfl | hys
      · rw [List.length_take]
        omega
      · refine ih ?_ hys
        rw [List.length_drop]
        omega

theorem flatten_split (h : xs.length = n * k) : (split n k xs).flatten = xs := by
  induction k generalizing xs with
  | zero => exact (List.length_eq_zero_iff.mp h).symm
  | succ k ih =>
      rw [split, List.flatten_cons, ih, List.take_append_drop]
      rw [List.length_drop, h, Nat.mul_succ]
      omega

theorem split_flatten {xss : List (List α)} (h : ∀ ys ∈ xss, ys.length = n) (rest : List α) :
    split n xss.length (xss.flatten ++ rest) = xss := by
  induction xss with
  | nil => rfl
  | cons ys xss ih =>
      obtain ⟨hys, hrest⟩ := List.forall_mem_cons.mp h
      subst hys
      rw [List.length_cons, split, List.flatten_cons, List.append_assoc, List.take_left, List.drop_left, ih hrest]

end Groups

def alphabet : List Char := "ABCDEFGHIJKLMNOPQRSTUVWXYZ234567".toList

def letter (group : List Bool) : Char := alphabet.getD (ofBits group) 'A'

def digit (c : Char) : Option (List Bool) := (alphabet.idxOf? c).map (bits 5)

theorem letter_mem (group : List Bool) : letter group ∈ alphabet := by
  rw [letter, List.getD_eq_getElem?_getD]
  cases h : alphabet[ofBits group]? with
  | none => decide
  | some c => exact List.mem_of_getElem? h

theorem digit_letter {group : List Bool} (h : group.length = 5) : digit (letter group) = some group := by
  have hletters : ∀ n < 32, alphabet.idxOf? (alphabet.getD n 'A') = some n := by decide +kernel
  have hlt : ofBits group < 32 := by
    have hbound := ofBits_lt group
    rwa [h] at hbound
  rw [digit, letter, hletters _ hlt, Option.map_some, ← h, bits_ofBits]

def byteBits (bytes : List UInt8) : List Bool := bytes.flatMap fun b => bits 8 b.toNat

/-- As many letters as the bits of `n` bytes fill. -/
def letters (n : Nat) : Nat := (8 * n + 4) / 5

def groups (bytes : List UInt8) : List (List Bool) :=
  split 5 (letters bytes.length)
    (byteBits bytes ++ List.replicate (5 * letters bytes.length - 8 * bytes.length) false)

def encode (bytes : List UInt8) : String := String.ofList ((groups bytes).map letter)

/-- The bits after the last whole byte are left out; a letter that is not one of the alphabet is an error. -/
def decode (text : String) : Option (List UInt8) :=
  (text.toList.mapM digit).map fun gs =>
    (split 8 (5 * gs.length / 8) gs.flatten).map fun b => UInt8.ofNat (ofBits b)

theorem length_byteBits (bytes : List UInt8) : (byteBits bytes).length = 8 * bytes.length := by
  induction bytes with
  | nil => rfl
  | cons b bytes ih =>
      unfold byteBits at ih ⊢
      rw [List.flatMap_cons, List.length_append, ih, length_bits, List.length_cons]
      omega

theorem length_filled (bytes : List UInt8) :
    (byteBits bytes ++ List.replicate (5 * letters bytes.length - 8 * bytes.length) false).length =
      5 * letters bytes.length := by
  rw [List.length_append, List.length_replicate, length_byteBits]
  unfold letters
  omega

theorem mapM_digit {gs : List (List Bool)} (h : ∀ g ∈ gs, g.length = 5) : (gs.map letter).mapM digit = some gs := by
  induction gs with
  | nil => rfl
  | cons g gs ih =>
      obtain ⟨hg, hgs⟩ := List.forall_mem_cons.mp h
      rw [List.map_cons, List.mapM_cons, digit_letter hg, ih hgs]
      rfl

theorem decode_encode (bytes : List UInt8) : decode (encode bytes) = some bytes := by
  have hgroups : ∀ g ∈ groups bytes, g.length = 5 := fun g hg =>
    length_of_mem_split (Nat.le_of_eq (length_filled bytes).symm) hg
  have hcount : 5 * (groups bytes).length / 8 = (bytes.map fun b => bits 8 b.toNat).length := by
    rw [groups, length_split, List.length_map]
    unfold letters
    omega
  have hbytes : ∀ b : UInt8, UInt8.ofNat (ofBits (bits 8 b.toNat)) = b := by
    intro b
    rw [ofBits_bits, Nat.mod_eq_of_lt b.toNat_lt, UInt8.ofNat_toNat]
  have hsplit : split 8 (5 * (groups bytes).length / 8) (groups bytes).flatten =
      bytes.map fun b => bits 8 b.toNat := by
    rw [hcount, groups, flatten_split (length_filled bytes), byteBits, List.flatMap_def]
    refine split_flatten (fun g hg => ?_) _
    obtain ⟨b, -, rfl⟩ := List.mem_map.mp hg
    exact length_bits 8 _
  rw [decode, encode, String.toList_ofList, mapM_digit hgroups, Option.map_some, hsplit, List.map_map]
  congr 1
  exact (List.map_congr_left fun b _ => hbytes b).trans (List.map_id _)

theorem length_encode (bytes : List UInt8) : (encode bytes).toList.length = letters bytes.length := by
  rw [encode, String.toList_ofList, List.length_map, groups, length_split]

theorem mem_alphabet {bytes : List UInt8} {c : Char} (h : c ∈ (encode bytes).toList) : c ∈ alphabet := by
  rw [encode, String.toList_ofList] at h
  obtain ⟨g, -, rfl⟩ := List.mem_map.mp h
  exact letter_mem g

end Base32
