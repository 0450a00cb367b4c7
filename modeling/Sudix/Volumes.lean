import Mathlib.Data.List.Basic
import Mathlib.Logic.Function.Basic

/-! Files behind names. A name leads to a file, several names may lead to the same one, and a file that is open
stays what it is whatever becomes of its name. Opening for writing truncates what is there, and bytes are written at
a position. Names are taken as they are spelled. -/

namespace Volumes

/-- A file, with attributes that writing does not change. -/
structure File (μ : Type) where
  attr : μ
  contents : List UInt8

structure Volume (μ : Type) where
  names : String → Option Nat
  file : Nat → File μ
  fresh : Nat
  bound : ∀ name i, names name = some i → i < fresh

/-- Bytes written at a position: what was there is overwritten, and what was missing before it is zero. -/
def splice (offset : Nat) (bytes contents : List UInt8) : List UInt8 :=
  match bytes with
  | [] => contents
  | b :: bs =>
      contents.take offset ++ List.replicate (offset - contents.length) 0 ++ b :: bs ++
        contents.drop (offset + (bs.length + 1))

/-- Over nothing, or over as much, a text written from the start is all there is. -/
theorem splice_zero {bytes contents : List UInt8} (hne : bytes ≠ []) (hlen : contents.length ≤ bytes.length) :
    splice 0 bytes contents = bytes := by
  cases bytes with
  | nil => exact absurd rfl hne
  | cons b bs =>
      have hdrop : contents.drop (0 + (bs.length + 1)) = [] := by
        rw [Nat.zero_add]
        exact List.drop_of_length_le hlen
      simp only [splice, hdrop, List.take_zero, Nat.zero_sub, List.replicate_zero, List.nil_append, List.append_nil]

/-- Bytes written where the contents end are appended. -/
theorem splice_length (bytes contents : List UInt8) : splice contents.length bytes contents = contents ++ bytes := by
  cases bytes with
  | nil => rw [splice, List.append_nil]
  | cons b bs =>
      have hdrop : contents.drop (contents.length + (bs.length + 1)) = [] := List.drop_of_length_le (by omega)
      simp only [splice, hdrop, List.take_length, Nat.sub_self, List.replicate_zero, List.append_nil]

namespace Volume

variable {μ : Type} {v : Volume μ} {name other : String} {attr : μ} {i offset : Nat} {bytes : List UInt8}

/-- The file a name leads to. -/
def look (v : Volume μ) (name : String) : Option (File μ) := (v.names name).map v.file

def setContents (v : Volume μ) (i : Nat) (contents : List UInt8) : Volume μ :=
  { v with file := Function.update v.file i { v.file i with contents } }

/-- The file behind a name is emptied, or a new one is made there with these attributes. -/
def create (v : Volume μ) (name : String) (attr : μ) : Nat × Volume μ :=
  match v.names name with
  | some i => (i, v.setContents i [])
  | none =>
      (v.fresh,
        { names := Function.update v.names name (some v.fresh)
          file := Function.update v.file v.fresh ⟨attr, []⟩
          fresh := v.fresh + 1
          bound := by
            intro other i h
            by_cases hother : other = name
            · rw [hother, Function.update_self] at h
              rw [← Option.some.inj h]
              exact Nat.lt_succ_self _
            · rw [Function.update_of_ne hother] at h
              exact Nat.lt_succ_of_lt (v.bound other i h) })

def write (v : Volume μ) (i offset : Nat) (bytes : List UInt8) : Volume μ :=
  v.setContents i (splice offset bytes (v.file i).contents)

/-- The name leads nowhere any more; what it led to stays for its other names. -/
def remove (v : Volume μ) (name : String) : Volume μ :=
  { v with
    names := Function.update v.names name none
    bound := by
      intro other i h
      by_cases hother : other = name
      · rw [hother, Function.update_self] at h
        cases h
      · rw [Function.update_of_ne hother] at h
        exact v.bound other i h }

def setAttr (v : Volume μ) (i : Nat) (attr : μ) : Volume μ :=
  { v with file := Function.update v.file i { v.file i with attr } }

/-- The contents behind a name. -/
def contents (v : Volume μ) (name : String) : Option (List UInt8) := (v.look name).map File.contents

theorem look_eq_some {file : File μ} : v.look name = some file ↔ ∃ i, v.names name = some i ∧ v.file i = file :=
  Option.map_eq_some_iff

theorem contents_eq_some {bytes : List UInt8} :
    v.contents name = some bytes ↔ ∃ i, v.names name = some i ∧ (v.file i).contents = bytes := by
  simp [contents, look]

theorem create_names : (v.create name attr).2.names name = some (v.create name attr).1 := by
  unfold create
  cases h : v.names name with
  | some i => exact h
  | none => exact Function.update_self ..

theorem create_contents : ((v.create name attr).2.file (v.create name attr).1).contents = [] := by
  unfold create
  cases h : v.names name with
  | some i => simp [setContents]
  | none => simp

theorem create_attr_of_none (h : v.names name = none) :
    ((v.create name attr).2.file (v.create name attr).1).attr = attr := by
  unfold create
  rw [h]
  simp

theorem create_attr_of_some (h : v.names name = some i) :
    ((v.create name attr).2.file (v.create name attr).1).attr = (v.file i).attr := by
  unfold create
  rw [h]
  simp [setContents]

theorem create_fresh : (v.create name attr).1 < (v.create name attr).2.fresh :=
  (v.create name attr).2.bound name _ create_names

theorem fresh_le_create : v.fresh ≤ (v.create name attr).2.fresh := by
  unfold create
  cases v.names name with
  | some i => exact Nat.le_refl _
  | none => exact Nat.le_succ _

/-- No other file is changed. -/
theorem create_file_of_ne (h : i ≠ (v.create name attr).1) : (v.create name attr).2.file i = v.file i := by
  revert h
  unfold create
  cases v.names name with
  | some j => exact fun h => Function.update_of_ne h ..
  | none => exact fun h => Function.update_of_ne h ..

/-- A name that leads to another file has led there before. -/
theorem names_of_create (h : (v.create name attr).2.names other = some i) (hne : i ≠ (v.create name attr).1) :
    v.names other = some i := by
  revert h hne
  unfold create
  cases v.names name with
  | some j => exact fun h _ => h
  | none =>
      intro h hne
      dsimp only at h hne
      by_cases hother : other = name
      · rw [hother, Function.update_self] at h
        exact absurd (Option.some.inj h).symm hne
      · rwa [Function.update_of_ne hother] at h

/-- A name that led to a file still does. -/
theorem create_names_of_some (h : v.names other = some i) : (v.create name attr).2.names other = some i := by
  unfold create
  cases hname : v.names name with
  | some j => exact h
  | none =>
      have hother : other ≠ name := by
        rintro rfl
        rw [hname] at h
        cases h
      exact (Function.update_of_ne hother ..).trans h

/-- What is opened under a name that leads nowhere is a file no name has led to. -/
theorem create_of_none (h : v.names name = none) : v.create name attr = ⟨v.fresh, (v.create name attr).2⟩ := by
  unfold create
  rw [h]

theorem create_of_some (h : v.names name = some i) : v.create name attr = (i, v.setContents i []) := by
  unfold create
  rw [h]

/-- A file that the name does not lead to is not the one that is opened. -/
theorem ne_create (attr : μ) (hi : i < v.fresh) (hne : v.names name ≠ some i) : i ≠ (v.create name attr).1 := by
  cases h : v.names name with
  | none =>
      rw [create_of_none h]
      exact Nat.ne_of_lt hi
  | some j =>
      rw [create_of_some h]
      rintro rfl
      exact hne h

@[simp] theorem remove_names_self : (v.remove name).names name = none := Function.update_self ..

theorem remove_names_of_ne (hother : other ≠ name) : (v.remove name).names other = v.names other :=
  Function.update_of_ne hother ..

theorem names_of_remove (h : (v.remove name).names other = some i) : other ≠ name ∧ v.names other = some i := by
  have hother : other ≠ name := by
    rintro rfl
    rw [remove_names_self] at h
    cases h
  exact ⟨hother, (remove_names_of_ne hother).symm.trans h⟩

@[simp] theorem setAttr_file_self : (v.setAttr i attr).file i = ⟨attr, (v.file i).contents⟩ := Function.update_self ..

theorem setAttr_file_of_ne {j : Nat} (h : j ≠ i) : (v.setAttr i attr).file j = v.file j := Function.update_of_ne h ..

theorem setAttr_contents {j : Nat} : ((v.setAttr i attr).file j).contents = (v.file j).contents := by
  by_cases hj : j = i
  · rw [hj, setAttr_file_self]
  · rw [setAttr_file_of_ne hj]

@[simp] theorem setContents_setContents {contents contents' : List UInt8} :
    (v.setContents i contents).setContents i contents' = v.setContents i contents' := by
  unfold setContents
  simp

theorem setContents_self (h : (v.file i).contents = bytes) : v.setContents i bytes = v := by
  unfold setContents
  rw [← h, Function.update_eq_self]

@[simp] theorem setContents_file_self {contents : List UInt8} :
    (v.setContents i contents).file i = ⟨(v.file i).attr, contents⟩ := Function.update_self ..

theorem setContents_file_of_ne {j : Nat} {contents : List UInt8} (h : j ≠ i) :
    (v.setContents i contents).file j = v.file j := Function.update_of_ne h ..

/-- A text that stands in the file as far as it has been written is written on. -/
theorem setContents_write {text : List UInt8} {n : Nat} (h : offset ≤ text.length) :
    (v.setContents i (text.take offset)).write i offset ((text.drop offset).take n) =
      v.setContents i (text.take (offset + n)) := by
  have hoffset : offset = (text.take offset).length := by
    rw [List.length_take]
    omega
  have hsplice : splice offset ((text.drop offset).take n) (text.take offset) = text.take (offset + n) :=
    calc
      splice offset ((text.drop offset).take n) (text.take offset)
        = splice (text.take offset).length ((text.drop offset).take n) (text.take offset) := by rw [← hoffset]
      _ = text.take offset ++ (text.drop offset).take n := splice_length _ _
      _ = text.take (offset + n) := List.take_add.symm
  rw [write, setContents_setContents, setContents_file_self, hsplice]

theorem write_file_self :
    (v.write i offset bytes).file i = { v.file i with contents := splice offset bytes (v.file i).contents } :=
  Function.update_self ..

theorem write_file_of_ne {j : Nat} (h : j ≠ i) : (v.write i offset bytes).file j = v.file j :=
  Function.update_of_ne h ..

end Volume
end Volumes
