import Mathlib.Data.List.TakeWhile
import OrbitOs.Shell.Commands

/-!
# What `cat` prints

The loop of `cat` reads 255 bytes at a time and prints each piece as a string,
so of every piece only the bytes before its first zero are printed.
-/

set_option autoImplicit false

namespace OrbitOs.Shell

open OrbitOs.Machine OrbitOs.Kernel OrbitOs.Base OrbitOs.Drivers OrbitOs.Fs

/-! ## The text of a file -/

def beforeZero (l : List Byte) : List Byte := l.takeWhile (· ≠ 0)

/-- Of each piece of 255 bytes those before the first zero. -/
def catText (l : List Byte) : List Byte :=
  if l = [] then [] else beforeZero (l.take 255) ++ catText (l.drop 255)
termination_by l.length
decreasing_by
  have nonempty : 0 < l.length := List.length_pos_iff.mpr (by assumption)
  rw [List.length_drop]
  omega

theorem catText_split (l : List Byte) :
    catText l = beforeZero (l.take 255) ++ catText (l.drop 255) := by
  by_cases empty : l = []
  · rw [empty, List.take_nil, List.drop_nil, catText, if_pos rfl]
    rfl
  · rw [catText, if_neg empty]

theorem length_catText_le (l : List Byte) : (catText l).length ≤ l.length := by
  induction l using catText.induct with
  | case1 => rw [catText, if_pos rfl]
  | case2 l nonempty ih =>
      have positive : 0 < l.length := List.length_pos_iff.mpr nonempty
      have piece := (List.takeWhile_prefix (l := l.take 255) (· ≠ 0)).length_le
      rw [catText_split, List.length_append, beforeZero]
      rw [List.length_take] at piece
      rw [List.length_drop] at ih
      omega

theorem beforeZero_eq_self {l : List Byte} : beforeZero l = l ↔ 0 ∉ l := by
  rw [beforeZero, List.takeWhile_eq_self_iff]
  constructor
  · intro all member
    exact of_decide_eq_true (all 0 member) rfl
  · intro noZero b member
    exact decide_eq_true fun zero => noZero (zero ▸ member)

theorem beforeZero_eq_take {l : List Byte} {n : ℕ} (nonzero : ∀ b ∈ l.take n, b ≠ 0)
    (stop : ∀ b, l[n]? = some b → b = 0) : beforeZero l = l.take n := by
  have rest : (l.drop n).takeWhile (· ≠ 0) = [] := by
    rw [List.takeWhile_eq_nil_iff]
    intro more notZero
    have atStop : l[n]? = some ((l.drop n).get ⟨0, more⟩) := by
      rw [List.get_eq_getElem, ← List.getElem?_eq_getElem more, List.getElem?_drop]
      rfl
    exact of_decide_eq_true notZero (stop _ atStop)
  rw [beforeZero]
  conv_lhs => rw [← List.take_append_drop n l]
  rw [List.takeWhile_append_of_pos fun b member => decide_eq_true (nonzero b member), rest,
    List.append_nil]

/-- The text is the whole file when the file has no zero, and only then. -/
theorem catText_eq_self_iff (l : List Byte) : catText l = l ↔ 0 ∉ l := by
  induction l using catText.induct with
  | case1 =>
      rw [catText, if_pos rfl]
      simp
  | case2 l nonempty rest =>
      have whole : 0 ∉ l ↔ 0 ∉ l.take 255 ∧ 0 ∉ l.drop 255 := by
        conv_lhs => rw [← List.take_append_drop 255 l, List.mem_append, not_or]
      rw [whole, ← rest, ← beforeZero_eq_self, catText_split]
      constructor
      · intro same
        -- neither part can be shorter than its piece
        have short := (List.takeWhile_prefix (l := l.take 255) (· ≠ 0)).length_le
        have shortRest := length_catText_le (l.drop 255)
        have parts : beforeZero (l.take 255) ++ catText (l.drop 255) =
            l.take 255 ++ l.drop 255 := by rw [same, List.take_append_drop]
        have lengths := congrArg List.length parts
        rw [List.length_append, List.length_append] at lengths
        have equal : (beforeZero (l.take 255)).length = (l.take 255).length := by
          rw [beforeZero] at lengths ⊢
          omega
        exact List.append_inj parts equal
      · rintro ⟨piece, pieces⟩
        rw [piece, pieces, List.take_append_drop]

/-! ## One turn of the loop -/

theorem fsRead_count_le (st : Initrd) (m : Mem) (n : NodeRef) (offset size buffer : Word) :
    (Initrd.fsRead st m n offset size buffer).val.2.toNat ≤ size.toNat := by
  unfold Initrd.fsRead Initrd.initrdRead
  split_ifs with _ beyond clamped
  · exact Nat.zero_le _
  · dsimp only
    bv_omega
  · exact Nat.le_refl _
  · exact Nat.zero_le _

/-- The string in a buffer that has a zero behind `count` bytes. -/
theorem terminated_beforeZero {m : Mem} {buf : Word} {count : ℕ} (small : count < 2 ^ 32)
    (zero : m (buf + BitVec.ofNat 32 count) = 0) :
    ∃ n, Terminated m buf n ∧
      Initrd.bytesFrom m buf n = beforeZero (Initrd.bytesFrom m buf count) := by
  obtain ⟨n, inside, terminated⟩ := Console.exists_terminated small zero
  refine ⟨n, terminated, ?_⟩
  have front : (Initrd.bytesFrom m buf count).take n = Initrd.bytesFrom m buf n := by
    rw [Initrd.bytesFrom_take, Nat.min_eq_left inside]
  rw [beforeZero_eq_take (n := n), front]
  · intro b member
    rw [front] at member
    obtain ⟨i, inRange, rfl⟩ := List.mem_map.mp member
    exact terminated.nonzero i (List.mem_range.mp inRange)
  · intro b atStop
    obtain ⟨bound, here⟩ := List.getElem?_eq_some_iff.mp atStop
    rw [← here]
    simpa [Initrd.bytesFrom] using terminated.zero

theorem write_append (t : Terminal) (a b : List Byte) : (t.write a).write b = t.write (a ++ b) :=
  (List.foldl_append).symm

/-- `sz > 255 ? 255 : sz` -/
theorem readSz_toNat (sz : Word) : (if sz > 255 then 255 else sz).toNat = min 255 sz.toNat := by
  have limit : (255 : Word).toNat = 255 := rfl
  split_ifs with large
  · rw [gt_iff_lt, BitVec.lt_def, limit] at large
    rw [limit]
    omega
  · rw [gt_iff_lt, BitVec.lt_def, limit] at large
    omega

/-! ## The loop ends -/

/-- The loop ends on every node, and its stores are in the array. -/
theorem catLoop_ends (fsnode : NodeRef) (buf : Word) (fuel : ℕ) (sz offset : Word) (c : Console)
    (enough : sz.toNat < fuel) : ∃ c', catLoop fsnode buf fuel sz offset c = some c' ∧
      (Console.FitsBuffer buf c.stores → Console.FitsBuffer buf c'.stores) := by
  induction fuel generalizing sz offset c with
  | zero => omega
  | succ fuel ih =>
      rw [catLoop]
      by_cases more : sz > 0
      · rw [if_pos more]
        have size := readSz_toNat sz
        generalize (if sz > 255 then 255 else sz) = readSz at size
        have count := fsRead_count_le c.fs c.mem fsnode offset readSz buf
        have fits := Console.fitsBuffer_read_iff c fsnode offset readSz buf
        have stores := c.read_stores fsnode offset readSz buf
        rw [← Console.read_count] at count
        generalize fsReadStores c.fs c.mem fsnode offset readSz buf = new at fits stores
        dsimp only
        generalize c.read fsnode offset readSz buf = filled at count fits stores
        obtain ⟨c₁, bytes⟩ := filled
        dsimp only at count fits stores ⊢
        have new := fits.mpr (by omega)
        by_cases none : bytes = 0
        · rw [if_pos none]
          refine ⟨c₁, rfl, fun before => ?_⟩
          rw [stores]
          exact Console.FitsBuffer.append.mpr ⟨before, (Console.FitsBuffer.append.mp new).1⟩
        · rw [if_neg none]
          obtain ⟨n, terminated, -⟩ := terminated_beforeZero bytes.isLt
            (c₁.store_terminator buf bytes)
          have positive : 0 < bytes.toNat := by
            rw [Nat.pos_iff_ne_zero]
            exact fun zero => none (BitVec.eq_of_toNat_eq zero)
          have left : (sz - bytes).toNat < fuel := by
            rw [BitVec.toNat_sub_of_le (BitVec.le_def.mpr (by omega))]
            omega
          rw [Console.writeBuffer_terminated _ terminated]
          obtain ⟨c', ends, kept⟩ := ih (sz - bytes) (offset + bytes) _ left
          refine ⟨c', ends, fun before => kept ?_⟩
          rw [Console.print_stores, Console.store_stores, stores, List.append_assoc]
          exact Console.FitsBuffer.append.mpr ⟨before, new⟩
      · rw [if_neg more]
        exact ⟨c, rfl, id⟩

/-! ## The loop prints -/

/-- The array is apart from the contents of the file. -/
def BufferApart (n : FsNode) (buf : Word) : Prop := Apart buf 256 n.impl n.length.toNat

/-- The terminator is behind the text. -/
theorem bytesFrom_store (c : Console) (buf bytes : Word) :
    Initrd.bytesFrom (c.store (buf + bytes) 0).mem buf bytes.toNat =
      Initrd.bytesFrom c.mem buf bytes.toNat := by
  apply Initrd.bytesFrom_congr
  intro i bound
  have small := bytes.isLt
  have other : buf + BitVec.ofNat 32 i ≠ buf + bytes := by bv_omega
  rw [Console.store_mem, stByte, if_neg other]

section Prints

variable {n : FsNode} {buf : Word} (apart : BufferApart n buf)

include apart

theorem fileBytes_store (c : Console) {bytes : Word} (small : bytes.toNat ≤ 255) :
    Initrd.fileBytes (c.store (buf + bytes) 0).mem n = Initrd.fileBytes c.mem n := by
  apply Initrd.bytesFrom_congr
  intro i bound
  have split : buf + bytes = buf + BitVec.ofNat 32 bytes.toNat := by simp
  have inBuffer : Within buf 256 (buf + bytes) := split ▸ within_add buf (by omega) (by omega)
  have inFile := within_add n.impl bound (Nat.le_of_lt n.length.isLt)
  have other : n.impl + BitVec.ofNat 32 i ≠ buf + bytes :=
    fun same => apart _ inBuffer (same ▸ inFile)
  rw [Console.store_mem, stByte, if_neg other]

theorem roomFor_piece {size : Word} (small : size.toNat ≤ 255) : Initrd.RoomFor n buf size :=
  fun x inBuffer inFile => apart x (inBuffer.mono (by omega)) inFile

/-- One turn of the loop at `offset`: the piece is in the array and ends there,
and the file is as before. -/
theorem cat_piece {fsnode : NodeRef} {c : Console} (node : c.fs.node fsnode = n)
    (read : n.read = true) {offset readSz : Word} {left : ℕ} (small : readSz.toNat = min 255 left)
    (rest : offset.toNat + left = n.length.toNat) :
    ∃ c₁ bytes, c.read fsnode offset readSz buf = (c₁, bytes) ∧ bytes.toNat = min 255 left ∧
      c₁.fs = c.fs ∧ c₁.terminal = c.terminal ∧
      Initrd.fileBytes (c₁.store (buf + bytes) 0).mem n = Initrd.fileBytes c.mem n ∧
      Initrd.bytesFrom (c₁.store (buf + bytes) 0).mem buf bytes.toNat =
        ((Initrd.fileBytes c.mem n).drop offset.toNat).take 255 := by
  have lengthBound := n.length.isLt
  have meets : Initrd.Meets n offset readSz := by
    right
    unfold Initrd.NoWrap
    omega
  have room : Initrd.RoomFor n buf readSz := roomFor_piece apart (by omega)
  obtain ⟨m', count, value, isCount, kept, piece⟩ := Initrd.initrdRead_piece meets room c.mem
  have window : Initrd.window n offset readSz = min 255 left := by
    unfold Initrd.window
    omega
  have countToNat : count.toNat = min 255 left := by
    rw [isCount, window, BitVec.toNat_ofNat]
    omega
  have call : (Initrd.fsRead c.fs c.mem fsnode offset readSz buf).val = (m', count) := by
    unfold Initrd.fsRead
    rw [node, if_pos read, value]
  refine ⟨{ c with
    mem := m'
    stores := c.stores ++ fsReadStores c.fs c.mem fsnode offset readSz buf }, count, ?_,
    countToNat, rfl, rfl, ?_, ?_⟩
  · rw [Console.read, call]
  · rw [fileBytes_store apart _ (by omega)]
    exact kept
  · have length : ((Initrd.fileBytes c.mem n).drop offset.toNat).length = left := by
      simp only [Initrd.fileBytes, Initrd.bytesFrom, List.length_drop, List.length_map,
        List.length_range]
      omega
    rw [bytesFrom_store, piece, window]
    rcases Nat.le_total 255 left with long | short
    · rw [Nat.min_eq_left long]
    · rw [Nat.min_eq_right short, List.take_of_length_le (by omega),
        List.take_of_length_le (by omega)]

theorem catLoop_prints {fsnode : NodeRef} (read : n.read = true) (fuel : ℕ) (sz offset : Word)
    (c : Console) (node : c.fs.node fsnode = n)
    (rest : offset.toNat + sz.toNat = n.length.toNat) (enough : sz.toNat < fuel) :
    ∃ c', catLoop fsnode buf fuel sz offset c = some c' ∧ c'.terminal =
      c.terminal.write (catText ((Initrd.fileBytes c.mem n).drop offset.toNat)) := by
  have lengthBound := n.length.isLt
  induction fuel generalizing sz offset c with
  | zero => omega
  | succ fuel ih =>
      have length : ((Initrd.fileBytes c.mem n).drop offset.toNat).length = sz.toNat := by
        simp only [Initrd.fileBytes, Initrd.bytesFrom, List.length_drop, List.length_map,
          List.length_range]
        omega
      rw [catLoop]
      by_cases more : sz > 0
      · have positive : 0 < sz.toNat := by
          rw [gt_iff_lt, BitVec.lt_def] at more
          exact more
        obtain ⟨c₁, bytes, filled, count, sameFs, sameTerminal, kept, piece⟩ :=
          cat_piece apart node read (readSz_toNat sz) rest
        rw [if_pos more]
        dsimp only
        rw [filled]
        dsimp only
        have some : bytes ≠ 0 := by
          rintro rfl
          rw [show (0 : Word).toNat = 0 from rfl] at count
          omega
        rw [if_neg some]
        obtain ⟨k, terminated, printed⟩ := terminated_beforeZero bytes.isLt
          (c₁.store_terminator buf bytes)
        have left : (sz - bytes).toNat = sz.toNat - bytes.toNat :=
          BitVec.toNat_sub_of_le (BitVec.le_def.mpr (by omega))
        have next : (offset + bytes).toNat = offset.toNat + bytes.toNat := by
          rw [BitVec.toNat_add]
          omega
        rw [Console.writeBuffer_terminated _ terminated, printed, piece]
        obtain ⟨c', ends, shown⟩ := ih (sz - bytes) (offset + bytes)
          ((c₁.store (buf + bytes) 0).print
            (beforeZero (((Initrd.fileBytes c.mem n).drop offset.toNat).take 255)))
          (by rw [Console.print_fs, Console.store_fs, sameFs, node]) (by omega) (by omega)
        refine ⟨c', ends, ?_⟩
        rw [shown, Console.print_terminal, Console.store_terminal, sameTerminal, Console.print_mem,
          kept, next, write_append, catText_split ((Initrd.fileBytes c.mem n).drop offset.toNat),
          ← List.drop_drop]
        congr 3
        rcases Nat.le_total 255 sz.toNat with long | short
        · rw [count, Nat.min_eq_left long]
        · rw [List.drop_of_length_le (by omega), List.drop_of_length_le (by omega)]
      · have atEnd : sz.toNat = 0 := by
          rw [gt_iff_lt, BitVec.lt_def] at more
          exact Nat.eq_zero_of_not_pos more
        rw [if_neg more, List.length_eq_zero_iff.mp (length.trans atEnd), catText, if_pos rfl]
        exact ⟨c, rfl, rfl⟩

end Prints

/-! ## The file of a name -/

/-- The name in a field that holds a string. -/
def nameBytes (a : Chars) : List Byte := beforeZero ((List.range nameSize).map a)

theorem nameBytes_holds {a : Chars} {j : ℕ} (bound : j < nameSize) (zero : a j = 0) :
    Holds a (nameBytes a) ∧ (nameBytes a).length < nameSize := by
  have found : ∃ k, a k = 0 := ⟨j, zero⟩
  have least := Nat.find_min' found zero
  have name : nameBytes a = (List.range (Nat.find found)).map a := by
    have front : ((List.range nameSize).map a).take (Nat.find found) =
        (List.range (Nat.find found)).map a := by
      rw [← List.map_take, List.take_range, Nat.min_eq_left (by omega)]
    rw [nameBytes, beforeZero_eq_take (n := Nat.find found), front]
    · intro b member
      rw [front] at member
      obtain ⟨k, inRange, rfl⟩ := List.mem_map.mp member
      exact Nat.find_min found (List.mem_range.mp inRange)
    · intro b atStop
      obtain ⟨inside, here⟩ := List.getElem?_eq_some_iff.mp atStop
      rw [← here, List.getElem_map, List.getElem_range]
      exact Nat.find_spec found
  rw [name]
  refine ⟨⟨fun member => ?_, fun k bound => ?_⟩, ?_⟩
  · obtain ⟨k, inRange, here⟩ := List.mem_map.mp member
    exact Nat.find_min found (List.mem_range.mp inRange) here
  · rw [List.length_map, List.length_range] at bound
    rcases Nat.lt_or_eq_of_le bound with inside | rfl
    · rw [List.getD_eq_getElem _ _ (by simpa using inside)]
      simp
    · rw [List.getD_eq_default _ _ (by simp)]
      exact Nat.find_spec found
  · rw [List.length_map, List.length_range]
    omega

/-- File `i` of the table is the first one with the name. -/
structure IsFile (st : Initrd) (i : ℕ) (name : List Byte) : Prop where
  inTable : i < st.numFiles.toNat
  holds : Holds (st.nodes i).name name
  first : ∀ k < i, ¬ Holds (st.nodes k).name name

open Initrd in
/-- What stays of a mount of any archive. -/
theorem mounted_later {m : Mem} {location : Word} {mounted st : Initrd}
    (mount : (initrdInitialize m location bss).val = some mounted)
    (requests : Requests mounted st) : Mountedly m location st ∧
      st.rootNode.flags = fsDirectory ∧ st.rootNode.finddir = true := by
  rcases initrdInitialize_cases m location bss with ⟨st', name, value, mounts, -⟩ | ⟨-, value⟩
  · cases mount.symm.trans value
    have rootNode := requests.frame.2.2.trans mounts.rootNode
    refine ⟨(mountedly_of_mounts mounts).later requests, ?_, ?_⟩
    · rw [rootNode]
    · rw [rootNode]
  · cases mount.symm.trans value

open Initrd in
theorem fsFinddir_isFile {m : Mem} {location : Word} {mounted st : Initrd}
    (mount : (initrdInitialize m location bss).val = some mounted)
    (requests : Requests mounted st) {i : ℕ} {name : List Byte} (isFile : IsFile st i name)
    {arg : Chars} (holds : Holds arg name) {fuel : ℕ} (enough : nameSize ≤ fuel) :
    (fsFinddir fuel st .root arg).val = some (some (.file i)) ∧ name.length < nameSize := by
  obtain ⟨mountedly, isDirectory, finddir⟩ := mounted_later mount requests
  have ends : ∀ k < st.numFiles.toNat, Holds (st.nodes k).name (nameBytes (st.nodes k).name) ∧
      (nameBytes (st.nodes k).name).length < nameSize := by
    intro k bound
    obtain ⟨j, small, zero⟩ := mountedly.named.2 k bound
    exact nameBytes_holds small zero
  have atIndex : ∀ k < st.numFiles.toNat, ((List.range st.numFiles.toNat).map fun k =>
      nameBytes (st.nodes k).name)[k]? = some (nameBytes (st.nodes k).name) := by
    intro k bound
    rw [List.getElem?_map, List.getElem?_range bound, Option.map_some]
  have named : NodesNamed st ((List.range st.numFiles.toNat).map fun k =>
      nameBytes (st.nodes k).name) := by
    refine ⟨by simp, fun k x found => ?_⟩
    have bound := (List.getElem?_eq_some_iff.mp found).1
    rw [List.length_map, List.length_range] at bound
    rw [atIndex k bound] at found
    exact Option.some.inj found ▸ (ends k bound).1
  have own := holds_unique isFile.holds (ends i isFile.inTable).1
  refine ⟨?_, own ▸ (ends i isFile.inTable).2⟩
  rw [named.fsFinddir holds ?_ isDirectory finddir]
  · refine congrArg some (firstNamed_eq_some_iff.mpr ⟨?_, fun k earlier again => ?_⟩)
    · rw [atIndex i isFile.inTable, ← own]
    · have bound := Nat.lt_trans earlier isFile.inTable
      rw [atIndex k bound] at again
      exact isFile.first k earlier (Option.some.inj again ▸ (ends k bound).1)
  · intro y member
    obtain ⟨k, inRange, rfl⟩ := List.mem_map.mp member
    have short := (ends k (List.mem_range.mp inRange)).2
    omega

/-! ## The command -/

theorem write_inj {t : Terminal} {a b : List Byte} (same : t.write a = t.write b) : a = b := by
  have serial := congrArg Terminal.serial same
  rw [Terminal.write_serial, Terminal.write_serial] at serial
  exact List.append_cancel_left serial

theorem catLine_name {cmd : Chars} {name : List Byte} (holds : Holds cmd (catLine name)) :
    Holds (fun k => cmd (k + 4)) name := by
  refine ⟨fun member => holds.1 (List.mem_append_right _ member), fun k bound => ?_⟩
  have length : (catLine name).length = name.length + 4 := by
    rw [catLine, List.length_append, Nat.add_comm]
    rfl
  dsimp only
  rw [holds.2 (k + 4) (by omega)]
  rfl

section Command

variable (inputs : Inputs) {m₀ : Mem} {location : Word} {mounted : Initrd} {c : Console}
  (mount : (Initrd.initrdInitialize m₀ location Initrd.bss).val = some mounted)
  (requests : Initrd.Requests mounted c.fs) (fsRoot : c.fsRoot = some .root)
  {i : ℕ} {name : List Byte} (isFile : IsFile c.fs i name) {cmd : Chars}
  (holds : Holds cmd (catLine name)) (depth : ℕ)
  (apart : BufferApart (c.fs.nodes i) (inputs.buf depth)) {fuel : ℕ}
  (enough : 132 + (c.fs.nodes i).length.toNat < fuel)

include mount requests fsRoot isFile holds apart enough

theorem executeCommand_prints : ∃ c', executeCommand inputs fuel depth cmd c = some c' ∧
    c'.terminal =
      c.terminal.write (catText (Initrd.fileBytes c.mem (c.fs.nodes i)) ++ [0x0A]) := by
  obtain ⟨fuel, rfl⟩ := Nat.exists_eq_succ_of_ne_zero (by omega : fuel ≠ 0)
  have size : nameSize = 128 := rfl
  obtain ⟨found, short⟩ := fsFinddir_isFile mount requests isFile (catLine_name holds)
    (by omega : nameSize ≤ fuel)
  obtain ⟨mountedly, -⟩ := mounted_later mount requests
  have header := mountedly.nodes i (mountedly.count ▸ isFile.inTable)
  have node : c.fs.node (.file i) = c.fs.nodes i := rfl
  obtain ⟨c', ends, printed⟩ := catLoop_prints apart header.read fuel
    (c.fs.node (.file i)).length 0 c node (Nat.zero_add _) (by rw [node]; omega)
  have notDirectory : ¬ (c.fs.node (.file i)).flags &&& 0x07 = fsDirectory := by
    rw [node, header.flags]
    decide
  rw [executeCommand_cat inputs holds (by omega), cat, fsRoot]
  simp only [found, Option.bind_eq_bind, Option.bind_some]
  rw [if_neg notDirectory, ends]
  refine ⟨_, rfl, ?_⟩
  rw [Console.print_terminal, printed, write_append]
  rfl

/-- The command ends and prints the text of the file and a newline; this is the
file when the file has no zero byte, and only then. -/
theorem cat_prints_iff : ∃ c', executeCommand inputs fuel depth cmd c = some c' ∧
    c'.terminal =
      c.terminal.write (catText (Initrd.fileBytes c.mem (c.fs.nodes i)) ++ [0x0A]) ∧
    (c'.terminal = c.terminal.write (Initrd.fileBytes c.mem (c.fs.nodes i) ++ [0x0A]) ↔
      0 ∉ Initrd.fileBytes c.mem (c.fs.nodes i)) := by
  obtain ⟨c', ends, printed⟩ := executeCommand_prints inputs mount requests fsRoot isFile holds
    depth apart enough
  refine ⟨c', ends, printed, ?_⟩
  rw [← catText_eq_self_iff, printed]
  exact ⟨fun same => List.append_cancel_right (write_inj same), fun same => by rw [same]⟩

end Command

/-! ## A mounted image -/

open Initrd in
theorem fileBytes_packed {files : List File} {image : List Byte} {m : Mem} {location : Word}
    {n : FsNode} (packs : mkfs files = some image) (loaded : Loaded m location image) {i : ℕ}
    {f : File} (packed : files[i]? = some f) (noNul : 0 ∉ f.name)
    (isMounted : Mounted m location i n) : fileBytes m n = f.data ∧
      n.impl = location + BitVec.ofNat 32 (8 + 72 * files.length + dataStart files i) := by
  have layout := mkfs_layout packs
  obtain ⟨-, length, impl⟩ := layout_mounted layout loaded packed noNul isMounted
  refine ⟨?_, impl⟩
  have toNat : n.length.toNat = f.data.length := by
    rw [length, BitVec.toNat_ofNat, Nat.mod_eq_of_lt (layout_words layout loaded packed).2.2]
  apply List.ext_getElem
  · simp [fileBytes, bytesFrom, toNat]
  · intro k _ bound
    simp only [fileBytes, bytesFrom, List.getElem_map, List.getElem_range]
    rw [impl, BitVec.add_assoc, ← BitVec.ofNat_add]
    exact loaded.byte (layout.data i f packed) bound

open Initrd in
/-- An archive of one small file at 2 MiB, and a stack at 0x9000. -/
theorem single_mounted {f : File} {image : List Byte} (packs : mkfs [f] = some image)
    (noNul : 0 ∉ f.name) (short : f.name.length ≤ 63) (small : f.data.length ≤ 4096)
    (fits : image.length ≤ 2 ^ 32) :
    ∃ mounted, (initrdInitialize (memoryWith 0x200000 image) 0x200000 bss).val = some mounted ∧
      IsFile mounted 0 f.name ∧ BufferApart (mounted.nodes 0) 0x9000 ∧
      fileBytes (memoryWith 0x200000 image) (mounted.nodes 0) = f.data := by
  have loaded := loaded_memoryWith 0x200000 image fits
  have allNoNul : ∀ g ∈ [f], 0 ∉ g.name := by simpa using noNul
  obtain ⟨mounted, value, shows⟩ := initrdInitialize_shows packs allNoNul loaded bss
  obtain ⟨isMounted, -⟩ := shows mounted .refl
  have one : (shown [f]).length = 1 := length_shown [f]
  have node := isMounted.nodes 0 (by omega)
  obtain ⟨holds, -⟩ := layout_mounted (mkfs_layout packs) loaded rfl noNul node
  rw [List.take_of_length_le short] at holds
  obtain ⟨bytes, impl⟩ := fileBytes_packed packs loaded rfl noNul node
  refine ⟨mounted, value, ⟨?_, holds, fun k before => absurd before (Nat.not_lt_zero k)⟩, ?_,
    bytes⟩
  · rw [isMounted.count, one]
    exact Nat.zero_lt_one
  · have length : (mounted.nodes 0).length.toNat = f.data.length := by
      rw [← bytes]
      simp [fileBytes, bytesFrom]
    have start : (mounted.nodes 0).impl = 0x200050 := by
      rw [impl]
      rfl
    intro x inBuffer inFile
    have low : Within 0x9000 256 x := inBuffer
    have high : Within 0x200050 4096 x := (start ▸ inFile).mono (by omega)
    unfold Within at low high
    bv_omega

def shellAt (fs : Initrd) (mem : Mem) : Console := ⟨fs, some .root, mem, blankScreen, []⟩

/-- `buf` is at 0x9000. -/
def lowStack : Inputs := ⟨fun _ _ _ _ => 0xFFFFFFFF, [], [], [], fun _ => 0, fun _ => 0x9000⟩

def greeting : File := ⟨[0x7A], [0x68, 0x69]⟩

theorem cat_prints_iff_greeting : ∃ image fs, mkfs [greeting] = some image ∧
    (Initrd.initrdInitialize (Initrd.memoryWith 0x200000 image) 0x200000 Initrd.bss).val =
      some fs ∧
    ∃ c', executeCommand lowStack 1000 0 (literalText "cat z")
        (shellAt fs (Initrd.memoryWith 0x200000 image)) = some c' ∧
      c'.terminal = blankScreen.write (catText greeting.data ++ [0x0A]) ∧
      (c'.terminal = blankScreen.write (greeting.data ++ [0x0A]) ↔ 0 ∉ greeting.data) := by
  obtain ⟨image, packs, size⟩ : ∃ image, mkfs [greeting] = some image ∧ image.length = 82 :=
    ⟨_, rfl, rfl⟩
  obtain ⟨fs, mount, isFile, apart, bytes⟩ := single_mounted packs (by decide) (by decide)
    (by decide) (by omega)
  have length : (fs.nodes 0).length.toNat = 2 := by
    have lengths := congrArg List.length bytes
    simpa [Initrd.fileBytes, Initrd.bytesFrom, greeting] using lengths
  have enough : 132 + (fs.nodes 0).length.toNat < 1000 := by omega
  refine ⟨image, fs, packs, mount, ?_⟩
  rw [← bytes]
  exact cat_prints_iff lowStack (c := shellAt fs (Initrd.memoryWith 0x200000 image)) mount
    .refl rfl isFile (literalText_holds "cat z" (by decide)) 0 apart enough

/-- The file `z` with the bytes "A", zero, "B". -/
def zeroInside : File := ⟨[0x7A], [0x41, 0x00, 0x42]⟩

/-- Only the "A" is printed. -/
theorem zeroInside_not_printed : ∃ image fs, mkfs [zeroInside] = some image ∧
    (Initrd.initrdInitialize (Initrd.memoryWith 0x200000 image) 0x200000 Initrd.bss).val =
      some fs ∧
    ∃ c', executeCommand lowStack 1000 0 (literalText "cat z")
        (shellAt fs (Initrd.memoryWith 0x200000 image)) = some c' ∧
      c'.terminal = blankScreen.write [0x41, 0x0A] ∧
      c'.terminal ≠ blankScreen.write (zeroInside.data ++ [0x0A]) := by
  obtain ⟨image, packs, size⟩ : ∃ image, mkfs [zeroInside] = some image ∧ image.length = 83 :=
    ⟨_, rfl, rfl⟩
  obtain ⟨fs, mount, isFile, apart, bytes⟩ := single_mounted packs (by decide) (by decide)
    (by decide) (by omega)
  have length : (fs.nodes 0).length.toNat = 3 := by
    have lengths := congrArg List.length bytes
    simpa [Initrd.fileBytes, Initrd.bytesFrom, zeroInside] using lengths
  have enough : 132 + (fs.nodes 0).length.toNat < 1000 := by omega
  obtain ⟨c', ends, printed⟩ := executeCommand_prints lowStack
    (c := shellAt fs (Initrd.memoryWith 0x200000 image)) mount
    .refl rfl isFile (literalText_holds "cat z" (by decide)) 0 apart enough
  have text : catText zeroInside.data = [0x41] := by
    rw [catText, if_neg (by decide)]
    simp [catText, zeroInside, beforeZero]
  have contents : Initrd.fileBytes (Initrd.memoryWith 0x200000 image) (fs.nodes 0) =
      zeroInside.data := bytes
  dsimp only [shellAt] at printed
  rw [contents, text] at printed
  refine ⟨image, fs, packs, mount, c', ends, printed, fun same => ?_⟩
  exact absurd (write_inj (printed.symm.trans same)) (by decide)

end OrbitOs.Shell
