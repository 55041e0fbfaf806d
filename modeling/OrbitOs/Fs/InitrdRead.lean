import OrbitOs.Fs.InitrdAccess

/-!
# The window of a read

`initrd_read` clamps the requested size to the file by comparing a 32-bit sum
with the length.  The sum of a request that begins inside the file and reaches
beyond 2^32 is below the offset again, so such a request is not clamped at all;
every other one gets exactly its window.
-/

set_option autoImplicit false

namespace OrbitOs.Fs

open OrbitOs.Machine OrbitOs.Kernel OrbitOs.Base

namespace Initrd

def bytesFrom (m : Mem) (p : Word) (count : ℕ) : List Byte :=
  (List.range count).map fun i => m (p + BitVec.ofNat 32 i)

def fileBytes (m : Mem) (n : FsNode) : List Byte := bytesFrom m n.impl n.length.toNat

/-- One call does what it should for every memory and buffer: beyond the end of
the file nothing, otherwise the bytes from `offset` to the end of the window or
of the file go to the buffer, as far as the buffer lies apart from them, and
nothing else is written. -/
structure ReadsWindow (n : FsNode) (offset size : Word) : Prop where
  beyond : n.length ≤ offset → ∀ m buffer, (initrdRead m n offset size buffer).val = (m, 0)
  count : offset < n.length → ∀ m buffer, (initrdRead m n offset size buffer).val.2.toNat =
    min (offset.toNat + size.toNat) n.length.toNat - offset.toNat
  writes : offset < n.length → ∀ m buffer,
    AgreeOff (Within buffer (min (offset.toNat + size.toNat) n.length.toNat - offset.toNat)) m
      (initrdRead m n offset size buffer).val.1
  bytes : offset < n.length → ∀ m buffer,
    Apart buffer (min (offset.toNat + size.toNat) n.length.toNat - offset.toNat)
      (n.impl + offset) (min (offset.toNat + size.toNat) n.length.toNat - offset.toNat) →
    bytesFrom (initrdRead m n offset size buffer).val.1 buffer
        (min (offset.toNat + size.toNat) n.length.toNat - offset.toNat) =
      ((fileBytes m n).take (min (offset.toNat + size.toNat) n.length.toNat)).drop offset.toNat

/-- The request begins beyond the file, or its end does not wrap. -/
def Meets (n : FsNode) (offset size : Word) : Prop := n.length ≤ offset ∨ NoWrap offset size

/-! ## One request -/

variable {n : FsNode} {offset size : Word}

theorem Meets.inFile (meets : Meets n offset size) : InFile n offset size := by
  intro inside _
  rcases meets with beyond | noWrap
  · exact absurd inside (BitVec.not_lt.mpr beyond)
  · exact noWrap

theorem window_eq (inside : offset < n.length) :
    min (offset.toNat + size.toNat) n.length.toNat - offset.toNat = window n offset size := by
  rw [BitVec.lt_def] at inside
  unfold window
  omega

theorem initrdRead_val (meets : Meets n offset size) (m : Mem) (buffer : Word) :
    (n.length ≤ offset ∧ (initrdRead m n offset size buffer).val = (m, 0)) ∨
    (offset < n.length ∧ ∃ count : Word, count.toNat = window n offset size ∧
      (initrdRead m n offset size buffer).val =
        (memcpy m buffer (n.impl + offset) count, count)) := by
  unfold initrdRead
  by_cases begins : offset ≥ n.length
  · rw [if_pos begins]
    exact Or.inl ⟨begins, rfl⟩
  · rw [if_neg begins]
    exact Or.inr ⟨BitVec.not_le.mp begins, _, size_eq_window meets.inFile begins, rfl⟩

theorem initrdRead_count (meets : Meets n offset size) (m : Mem) (buffer : Word) :
    ∃ m', (initrdRead m n offset size buffer).val =
      (m', BitVec.ofNat 32 (window n offset size)) := by
  rcases initrdRead_val meets m buffer with ⟨atEnd, value⟩ | ⟨-, count, isWindow, value⟩
  · have none : window n offset size = 0 := by
      rw [BitVec.le_def] at atEnd
      unfold window
      omega
    exact ⟨m, by rw [value, none]; rfl⟩
  · rw [← isWindow, BitVec.ofNat_toNat, BitVec.setWidth_eq]
    exact ⟨_, value⟩

theorem bytesFrom_congr {m m' : Mem} {p : Word} {count : ℕ}
    (same : ∀ i < count, m' (p + BitVec.ofNat 32 i) = m (p + BitVec.ofNat 32 i)) :
    bytesFrom m' p count = bytesFrom m p count :=
  List.map_congr_left fun i member => same i (List.mem_range.mp member)

theorem bytesFrom_drop (m : Mem) (p : Word) (count k : ℕ) :
    (bytesFrom m p count).drop k = bytesFrom m (p + BitVec.ofNat 32 k) (count - k) := by
  apply List.ext_getElem
  · simp [bytesFrom]
  · intro i _ _
    simp [bytesFrom, BitVec.ofNat_add, BitVec.add_assoc]

theorem bytesFrom_take (m : Mem) (p : Word) (count k : ℕ) :
    (bytesFrom m p count).take k = bytesFrom m p (min k count) := by
  apply List.ext_getElem
  · simp [bytesFrom]
  · intro i _ _
    simp [bytesFrom]

theorem bytesFrom_memcpy (m : Mem) {buffer source count : Word}
    (apart : Apart buffer count.toNat source count.toNat) :
    bytesFrom (memcpy m buffer source count) buffer count.toNat = bytesFrom m source count.toNat :=
  List.map_congr_left fun _ member => memcpy_byte m apart (List.mem_range.mp member)

theorem fileBytes_window (m : Mem) (inside : offset < n.length) :
    ((fileBytes m n).take (min (offset.toNat + size.toNat) n.length.toNat)).drop offset.toNat =
      bytesFrom m (n.impl + offset) (window n offset size) := by
  rw [fileBytes, bytesFrom_take, bytesFrom_drop, ← window_eq inside]
  congr 1
  · simp
  · omega

theorem readsWindow_of_meets (meets : Meets n offset size) : ReadsWindow n offset size := by
  refine ⟨fun beyond m buffer => ?_, fun inside m buffer => ?_, fun inside m buffer => ?_,
    fun inside m buffer apart => ?_⟩
  · rcases initrdRead_val meets m buffer with ⟨-, value⟩ | ⟨inside, -⟩
    · exact value
    · exact absurd beyond (BitVec.not_le.mpr inside)
  all_goals
    obtain ⟨-, count, isWindow, value⟩ := (initrdRead_val meets m buffer).resolve_left
      fun outside => BitVec.not_le.mpr inside outside.1
    rw [value, window_eq inside, ← isWindow]
  · exact memcpy_agreeOff m buffer _ count
  · rw [window_eq inside, ← isWindow] at apart
    rw [fileBytes_window m inside, ← isWindow]
    exact bytesFrom_memcpy m apart

/-- A request whose end wraps is not clamped: it copies and returns all of `size`. -/
theorem initrdRead_unclamped (fails : ¬ Meets n offset size) (m : Mem) (buffer : Word) :
    offset < n.length ∧ n.length.toNat - offset.toNat < size.toNat ∧
      (initrdRead m n offset size buffer).val = (memcpy m buffer (n.impl + offset) size, size) := by
  obtain ⟨inside, wraps⟩ := not_or.mp fails
  rw [BitVec.not_le] at inside
  have lengthBound := n.length.isLt
  have sizeBound := size.isLt
  unfold NoWrap at wraps
  have begins : ¬ offset ≥ n.length := BitVec.not_le.mpr inside
  rw [BitVec.lt_def] at inside
  have unclamped : ¬ offset + size > n.length := by
    rw [gt_iff_lt, BitVec.lt_def, BitVec.toNat_add]
    omega
  refine ⟨inside, by omega, ?_⟩
  unfold initrdRead
  rw [if_neg begins]
  simp only [if_neg unclamped]

theorem meets_of_readsWindow (reads : ReadsWindow n offset size) : Meets n offset size := by
  by_contra fails
  obtain ⟨inside, more, value⟩ := initrdRead_unclamped fails (fun _ => 0) 0
  have count := reads.count inside (fun _ => 0) 0
  rw [value, window_eq inside] at count
  have returned : size.toNat = window n offset size := count
  unfold window at returned
  omega

/-! ## Consecutive pieces -/

/-- Read pieces of the given sizes one after the other into the same buffer and
collect what it holds after each call. -/
def readPieces (n : FsNode) (buffer : Word) : Mem → List Word → Word → List Byte
  | _, [], _ => []
  | m, size :: sizes, offset =>
    let (m, count) := (initrdRead m n offset size buffer).val
    bytesFrom m buffer count.toNat ++ readPieces n buffer m sizes (offset + count)

/-- Every piece meets the condition at the place where the ones before it end. -/
def PiecesMeet (n : FsNode) : List Word → Word → Prop
  | [], _ => True
  | size :: sizes, offset => Meets n offset size ∧
      PiecesMeet n sizes (offset + BitVec.ofNat 32 (window n offset size))

theorem toNat_next (low : offset ≤ n.length) (size : Word) :
    (offset + BitVec.ofNat 32 (window n offset size)).toNat =
      offset.toNat + window n offset size ∧
    offset + BitVec.ofNat 32 (window n offset size) ≤ n.length := by
  have lengthBound := n.length.isLt
  rw [BitVec.le_def] at low ⊢
  have sum : (offset + BitVec.ofNat 32 (window n offset size)).toNat =
      offset.toNat + window n offset size := by
    unfold window
    rw [BitVec.toNat_add, BitVec.toNat_ofNat]
    omega
  refine ⟨sum, ?_⟩
  rw [sum]
  unfold window
  omega

/-- The buffer has room for what a piece may return, apart from the file. -/
def RoomFor (n : FsNode) (buffer size : Word) : Prop :=
  Apart buffer (min size.toNat n.length.toNat) n.impl n.length.toNat

/-- One piece: the bytes of the window, and the file is still there. -/
theorem initrdRead_piece (meets : Meets n offset size)
    {buffer : Word} (room : RoomFor n buffer size) (m : Mem) :
    ∃ m', ∃ count : Word, (initrdRead m n offset size buffer).val = (m', count) ∧
      count = BitVec.ofNat 32 (window n offset size) ∧ fileBytes m' n = fileBytes m n ∧
      bytesFrom m' buffer count.toNat =
        ((fileBytes m n).drop offset.toNat).take (window n offset size) := by
  rcases initrdRead_val meets m buffer with ⟨atEnd, value⟩ | ⟨inside, count, isWindow, value⟩
  · have none : window n offset size = 0 := by
      rw [BitVec.le_def] at atEnd
      unfold window
      omega
    refine ⟨m, 0, value, by rw [none]; rfl, rfl, ?_⟩
    rw [none, List.take_zero]
    rfl
  · have small : window n offset size ≤ min size.toNat n.length.toNat := by
      unfold window
      omega
    have ends : offset.toNat + window n offset size ≤ n.length.toNat := by
      rw [BitVec.lt_def] at inside
      unfold window
      omega
    have source : n.impl + offset = n.impl + BitVec.ofNat 32 offset.toNat := by simp
    have apart : Apart buffer count.toNat (n.impl + offset) count.toNat := by
      rw [isWindow, source]
      exact fun x inBuffer inSource => room x (inBuffer.mono small) (inSource.offset ends)
    refine ⟨_, count, value, ?_, bytesFrom_congr fun i bound => ?_, ?_⟩
    · apply BitVec.eq_of_toNat_eq
      have countBound := count.isLt
      rw [BitVec.toNat_ofNat, ← isWindow, Nat.mod_eq_of_lt countBound]
    · refine memcpy_agreeOff m buffer _ count _ fun inBuffer => ?_
      rw [isWindow] at inBuffer
      exact room _ (inBuffer.mono small) (within_add _ bound (Nat.le_of_lt n.length.isLt))
    · rw [bytesFrom_memcpy m apart, isWindow, fileBytes, bytesFrom_drop, bytesFrom_take, source]
      congr 1
      omega

/-- A piece of at most `k` bytes and the next `j` bytes behind it. -/
theorem take_min_append {α : Type} (l : List α) (k j : ℕ) :
    l.take (min k l.length) ++ (l.drop (min k l.length)).take j = l.take (k + j) := by
  rcases Nat.le_total k l.length with inside | beyond
  · rw [Nat.min_eq_left inside, List.take_add]
  · rw [Nat.min_eq_right beyond, List.take_length, List.drop_length, List.take_nil,
      List.append_nil, List.take_of_length_le (by omega)]

/-- Pieces that meet the condition are the file from the first offset on, up to
the sum of their sizes. -/
theorem readPieces_eq {buffer : Word} (sizes : List Word)
    (room : ∀ size ∈ sizes, RoomFor n buffer size) (m : Mem) (low : offset ≤ n.length)
    (meet : PiecesMeet n sizes offset) : readPieces n buffer m sizes offset =
      ((fileBytes m n).drop offset.toNat).take (sizes.map BitVec.toNat).sum := by
  induction sizes generalizing m offset with
  | nil => simp [readPieces]
  | cons size sizes ih =>
      obtain ⟨meets, meet⟩ := meet
      obtain ⟨m', count, value, rfl, kept, chunk⟩ :=
        initrdRead_piece meets (room size (List.mem_cons_self ..)) m
      obtain ⟨sum, low'⟩ := toNat_next low size
      rw [readPieces, value]
      dsimp only
      rw [chunk, ih (fun size' member => room size' (List.mem_cons_of_mem _ member)) m' low' meet,
        kept, sum, List.map_cons, List.sum_cons]
      rw [← List.drop_drop]
      have length : ((fileBytes m n).drop offset.toNat).length =
          n.length.toNat - offset.toNat := by
        simp [fileBytes, bytesFrom]
      generalize (fileBytes m n).drop offset.toNat = rest at length ⊢
      unfold window
      rw [← length, take_min_append]

/-- A piece that fails the condition returns more bytes than the file has left. -/
theorem piecesMeet_of_length {buffer : Word} (sizes : List Word) (m : Mem)
    (low : offset ≤ n.length)
    (short : (readPieces n buffer m sizes offset).length ≤ n.length.toNat - offset.toNat) :
    PiecesMeet n sizes offset := by
  induction sizes generalizing m offset with
  | nil => trivial
  | cons size sizes ih =>
      have meets : Meets n offset size := by
        by_contra fails
        obtain ⟨inside, more, value⟩ := initrdRead_unclamped fails m buffer
        rw [readPieces, value] at short
        simp only [List.length_append, bytesFrom, List.length_map, List.length_range] at short
        omega
      obtain ⟨m', value⟩ := initrdRead_count meets m buffer
      obtain ⟨sum, low'⟩ := toNat_next low size
      have countToNat : (BitVec.ofNat 32 (window n offset size)).toNat = window n offset size := by
        have lengthBound := n.length.isLt
        rw [BitVec.toNat_ofNat]
        unfold window
        omega
      rw [readPieces, value] at short
      simp only [List.length_append, bytesFrom, List.length_map, List.length_range,
        countToNat] at short
      exact ⟨meets, ih m' low' (by omega)⟩

/-! ## The condition -/

/-- A call of `initrd_read` returns exactly its window when it begins beyond the
file or its end does not wrap, and only then; and consecutive pieces that cover
the file are the file exactly when each of them meets that condition. -/
theorem initrdRead_exact_iff (n : FsNode) :
    (∀ offset size : Word, ReadsWindow n offset size ↔
      n.length ≤ offset ∨ offset.toNat + size.toNat < 2 ^ 32) ∧
    ∀ (m : Mem) (buffer : Word) (sizes : List Word),
      (∀ size ∈ sizes, RoomFor n buffer size) →
      n.length.toNat ≤ (sizes.map BitVec.toNat).sum →
      (readPieces n buffer m sizes 0 = fileBytes m n ↔ PiecesMeet n sizes 0) := by
  have low : (0 : Word) ≤ n.length := by
    rw [BitVec.le_def]
    exact Nat.zero_le _
  have length : ∀ m, (fileBytes m n).length = n.length.toNat := fun m => by
    simp [fileBytes, bytesFrom]
  refine ⟨fun offset size => ⟨meets_of_readsWindow, readsWindow_of_meets⟩,
    fun m buffer sizes room covered => ⟨fun whole => ?_, fun meet => ?_⟩⟩
  · apply piecesMeet_of_length sizes m low
    rw [whole, length]
    exact Nat.le_refl _
  · rw [readPieces_eq sizes room m low meet, List.take_of_length_le]
    · rfl
    · rw [List.length_drop, length]
      omega

def twoByteFile : FsNode :=
  { emptyNode with flags := fsFile, length := 2, impl := 0x100000, read := true }

theorem initrdRead_exact_iff_twoByteFile :
    (ReadsWindow twoByteFile 1 4 ↔
      twoByteFile.length ≤ 1 ∨ (1 : Word).toNat + (4 : Word).toNat < 2 ^ 32) ∧
    (readPieces twoByteFile 0x200000 (fun _ => 0x41) [1, 2] 0 =
        fileBytes (fun _ => 0x41) twoByteFile ↔ PiecesMeet twoByteFile [1, 2] 0) := by
  obtain ⟨call, pieces⟩ := initrdRead_exact_iff twoByteFile
  refine ⟨call 1 4, pieces _ 0x200000 [1, 2] (fun size member => ?_) (by decide)⟩
  intro x inBuffer inFile
  have small : min size.toNat twoByteFile.length.toNat ≤ 2 := Nat.min_le_right _ _
  have low : Within 0x200000 2 x := inBuffer.mono small
  have high : Within 0x100000 2 x := inFile
  unfold Within at low high
  bv_omega

/-- "Read the rest" from offset 1: the end 1 + 0xFFFFFFFF wraps to 0, the request
is not clamped, and the call copies 4 GiB less a byte instead of one byte. -/
theorem twoByteFile_rest_unclamped :
    (initrdRead (fun _ => 0x41) twoByteFile 1 0xFFFFFFFF 0x200000).val.2 = 0xFFFFFFFF ∧
      ¬ ReadsWindow twoByteFile 1 0xFFFFFFFF := by
  have fails : ¬ Meets twoByteFile 1 0xFFFFFFFF := by
    simp [Meets, NoWrap, twoByteFile]
  refine ⟨by rw [(initrdRead_unclamped fails _ _).2.2], fun reads => ?_⟩
  exact fails (meets_of_readsWindow reads)

end Initrd

end OrbitOs.Fs
