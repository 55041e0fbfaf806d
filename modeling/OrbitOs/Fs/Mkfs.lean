import Mathlib.Data.List.Basic
import Mathlib.Tactic
import OrbitOs.Machine.Memory

/-!
# The image writer mkfs.py

`mkfs` is the byte list the script writes, and `none` where it raises.  The
lemmas locate the header and the data of every file in the image by offsets.
-/

set_option autoImplicit false

namespace OrbitOs.Fs

open OrbitOs.Machine

structure File where
  name : List Byte
  data : List Byte

/-- `struct.pack('<I', n)` -/
def packU32 (n : ℕ) : Option (List Byte) :=
  if n < 2 ^ 32 then
    some [BitVec.ofNat 8 n, BitVec.ofNat 8 (n / 2 ^ 8), BitVec.ofNat 8 (n / 2 ^ 16),
      BitVec.ofNat 8 (n / 2 ^ 24)]
  else none

/-- `name[:63] + b'\\0' * (64 - len(name[:63]))` -/
def paddedName (name : List Byte) : List Byte :=
  name.take 63 ++ List.replicate (64 - (name.take 63).length) 0

/-- The loop that writes the headers. -/
def mkfsHeaders : ℕ → List File → Option (List Byte)
  | _, [] => some []
  | currentOffset, file :: files => do
    let offset ← packU32 currentOffset
    let length ← packU32 file.data.length
    let rest ← mkfsHeaders (currentOffset + file.data.length) files
    return paddedName file.name ++ offset ++ length ++ rest

/-- The names are those of the directory after `encode('ascii')`. -/
def mkfs (files : List File) : Option (List Byte) :=
  if files.all fun file => file.name.all (· < 0x80) then do
    let count ← packU32 files.length
    let headerSize := 8 + files.length * (64 + 4 + 4)
    let headers ← mkfsHeaders headerSize files
    return [0x4F, 0x52, 0x42, 0x54] ++ count ++ headers ++ files.flatMap File.data
  else none

/-! ## Sublists at an offset -/

/-- The list contains `x` from offset `p` on. -/
def ContainsAt (l : List Byte) (p : ℕ) (x : List Byte) : Prop := x <+: l.drop p

theorem ContainsAt.append_left {l x : List Byte} {p : ℕ} (contains : ContainsAt l p x)
    (a : List Byte) : ContainsAt (a ++ l) (a.length + p) x := by
  unfold ContainsAt
  rwa [List.drop_append, List.drop_of_length_le (by omega), List.nil_append,
    Nat.add_sub_cancel_left]

theorem ContainsAt.append_right {l x : List Byte} {p : ℕ} (contains : ContainsAt l p x)
    (b : List Byte) : ContainsAt (l ++ b) p x := by
  obtain ⟨tail, split⟩ := contains
  unfold ContainsAt
  by_cases inside : p ≤ l.length
  · rw [List.drop_append_of_le_length inside, ← split, List.append_assoc]
    exact List.prefix_append _ _
  · rw [List.drop_of_length_le (by omega)] at split
    rw [(List.append_eq_nil_iff.mp split).1]
    exact List.nil_prefix

theorem containsAt_self (x b : List Byte) : ContainsAt (x ++ b) 0 x := List.prefix_append _ _

/-- A part of a contained list. -/
theorem ContainsAt.part {l x : List Byte} {p : ℕ} (contains : ContainsAt l p x) {q : ℕ}
    {y : List Byte} (inner : ContainsAt x q y) : ContainsAt l (p + q) y := by
  obtain ⟨tail, split⟩ := contains
  have inside := inner.append_right tail
  rw [split] at inside
  unfold ContainsAt at inside ⊢
  rwa [List.drop_drop] at inside

theorem ContainsAt.getElem? {l x : List Byte} {p : ℕ} (contains : ContainsAt l p x) {k : ℕ}
    (bound : k < x.length) : l[p + k]? = x[k]? := by
  obtain ⟨tail, split⟩ := contains
  have inDrop : (l.drop p)[k]? = x[k]? := by
    rw [← split, List.getElem?_append_left bound]
  rwa [List.getElem?_drop] at inDrop

theorem ContainsAt.length_le {l x : List Byte} {p : ℕ} (contains : ContainsAt l p x)
    (nonempty : x ≠ []) : p + x.length ≤ l.length := by
  have le := List.IsPrefix.length_le contains
  have positive := List.length_pos_iff.mpr nonempty
  rw [List.length_drop] at le
  omega

/-! ## The layout of the image -/

theorem packU32_some {n : ℕ} {x : List Byte} (packs : packU32 n = some x) :
    n < 2 ^ 32 ∧ x = [BitVec.ofNat 8 n, BitVec.ofNat 8 (n / 2 ^ 8), BitVec.ofNat 8 (n / 2 ^ 16),
      BitVec.ofNat 8 (n / 2 ^ 24)] := by
  unfold packU32 at packs
  split at packs
  · rename_i small
    exact ⟨small, (Option.some.inj packs).symm⟩
  · contradiction

theorem length_packU32 {n : ℕ} {x : List Byte} (packs : packU32 n = some x) : x.length = 4 := by
  rw [(packU32_some packs).2]
  rfl

theorem length_paddedName (name : List Byte) : (paddedName name).length = 64 := by
  have short := List.length_take_le 63 name
  rw [paddedName, List.length_append, List.length_replicate]
  omega

/-- Offset of the data of file `i` from the end of the headers. -/
def dataStart (files : List File) (i : ℕ) : ℕ := ((files.take i).map fun f => f.data.length).sum

/-- The header of every file stands in its place. -/
theorem mkfsHeaders_layout {currentOffset : ℕ} {files : List File} {headers : List Byte}
    (packs : mkfsHeaders currentOffset files = some headers) :
    headers.length = 72 * files.length ∧ ∀ i f, files[i]? = some f → ∃ offset length,
      packU32 (currentOffset + dataStart files i) = some offset ∧
      packU32 f.data.length = some length ∧
      ContainsAt headers (72 * i) (paddedName f.name ++ offset ++ length) := by
  induction files generalizing currentOffset headers with
  | nil =>
      cases packs
      exact ⟨rfl, fun i f found => by simp at found⟩
  | cons file files ih =>
      simp only [mkfsHeaders, Option.bind_eq_bind, Option.bind_eq_some_iff] at packs
      obtain ⟨offset, packsOffset, length, packsLength, rest, packsRest, whole⟩ := packs
      obtain ⟨restLength, restAt⟩ := ih packsRest
      have whole := Option.some.inj whole
      have headLength : (paddedName file.name ++ offset ++ length).length = 72 := by
        rw [List.length_append, List.length_append, length_paddedName,
          length_packU32 packsOffset, length_packU32 packsLength]
      refine ⟨?_, ?_⟩
      · rw [← whole, List.length_append, headLength, restLength, List.length_cons]
        omega
      · intro i f found
        cases i with
        | zero =>
            cases found
            refine ⟨offset, length, packsOffset, packsLength, ?_⟩
            rw [← whole]
            exact containsAt_self _ _
        | succ i =>
            obtain ⟨offset', length', packsOffset', packsLength', here⟩ :=
              restAt i f (by simpa using found)
            refine ⟨offset', length', ?_, packsLength', ?_⟩
            · rw [← packsOffset']
              simp [dataStart, Nat.add_assoc]
            · have shifted := here.append_left (paddedName file.name ++ offset ++ length)
              rw [headLength, whole] at shifted
              rwa [(by ring : 72 * (i + 1) = 72 + 72 * i)]

theorem flatMap_data_layout {files : List File} {i : ℕ} {f : File} (found : files[i]? = some f) :
    ContainsAt (files.flatMap File.data) (dataStart files i) f.data := by
  induction files generalizing i with
  | nil => simp at found
  | cons file files ih =>
      rw [List.flatMap_cons]
      cases i with
      | zero =>
          cases found
          exact containsAt_self _ _
      | succ i =>
          have later := (ih (by simpa using found)).append_left file.data
          simpa [dataStart] using later

/-- Where everything is in the image. -/
structure Layout (files : List File) (image : List Byte) : Prop where
  magic : ContainsAt image 0 [0x4F, 0x52, 0x42, 0x54]
  count : ∃ count, packU32 files.length = some count ∧ ContainsAt image 4 count
  header : ∀ i f, files[i]? = some f → ∃ offset length,
    packU32 (8 + 72 * files.length + dataStart files i) = some offset ∧
    packU32 f.data.length = some length ∧
    ContainsAt image (8 + 72 * i) (paddedName f.name ++ offset ++ length)
  data : ∀ i f, files[i]? = some f →
    ContainsAt image (8 + 72 * files.length + dataStart files i) f.data

theorem mkfs_layout {files : List File} {image : List Byte} (packs : mkfs files = some image) :
    Layout files image := by
  unfold mkfs at packs
  split at packs
  · simp only [Option.bind_eq_bind, Option.bind_eq_some_iff] at packs
    obtain ⟨count, packsCount, headers, packsHeaders, whole⟩ := packs
    have whole := Option.some.inj whole
    obtain ⟨headersLength, headersAt⟩ := mkfsHeaders_layout packsHeaders
    have countLength := length_packU32 packsCount
    have startLength : ([0x4F, 0x52, 0x42, 0x54] ++ count : List Byte).length = 8 := by
      rw [List.length_append, countLength]
      rfl
    have size : 8 + files.length * (64 + 4 + 4) = 8 + 72 * files.length := by ring
    rw [size] at headersAt
    refine ⟨?_, ⟨count, packsCount, ?_⟩, ?_, ?_⟩
    · rw [← whole, List.append_assoc, List.append_assoc]
      exact containsAt_self _ _
    · have here := ((containsAt_self count headers).append_left
        [0x4F, 0x52, 0x42, 0x54]).append_right (files.flatMap File.data)
      rw [← whole]
      simpa [List.append_assoc] using here
    · intro i f found
      obtain ⟨offset, length, packsOffset, packsLength, here⟩ := headersAt i f found
      refine ⟨offset, length, packsOffset, packsLength, ?_⟩
      have shifted := (here.append_left ([0x4F, 0x52, 0x42, 0x54] ++ count)).append_right
        (files.flatMap File.data)
      rwa [startLength, whole] at shifted
    · intro i f found
      have shifted := (flatMap_data_layout found).append_left
        ([0x4F, 0x52, 0x42, 0x54] ++ count ++ headers)
      rw [List.length_append, startLength, headersLength, whole] at shifted
      exact shifted
  · contradiction

end OrbitOs.Fs
