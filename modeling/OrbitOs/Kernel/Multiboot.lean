import OrbitOs.Machine.Memory

/-!
# The boot information of kernel/multiboot.h

The boot loader leaves its structures in RAM, and whoever reads them reads RAM:
`load` takes a structure out of the memory of one moment.  A walk over the
memory map advances by the size that it reads from each entry, and what happens
between two reads may change the memory; `Walk` therefore carries a state.
-/

set_option autoImplicit false

namespace OrbitOs.Kernel

open OrbitOs.Machine

structure MultibootMmapEntry where
  size : Word
  addrLow : Word
  addrHigh : Word
  lenLow : Word
  lenHigh : Word
  type : Word
  deriving DecidableEq

/-- `MULTIBOOT_MEMORY_AVAILABLE` -/
def multibootMemoryAvailable : Word := 1

/-- The packed entry at `p`. -/
def MultibootMmapEntry.load (mem : Mem) (p : Word) : MultibootMmapEntry where
  size := ld32 mem p
  addrLow := ld32 mem (p + 4)
  addrHigh := ld32 mem (p + 8)
  lenLow := ld32 mem (p + 12)
  lenHigh := ld32 mem (p + 16)
  type := ld32 mem (p + 20)

structure MultibootModule where
  modStart : Word
  modEnd : Word
  deriving DecidableEq

def MultibootModule.load (mem : Mem) (p : Word) : MultibootModule where
  modStart := ld32 mem p
  modEnd := ld32 mem (p + 4)

structure MultibootInfo where
  flags : Word
  memLower : Word
  memUpper : Word
  modsCount : Word
  /-- The array at `mods_addr`. -/
  mods : Word → MultibootModule
  mmapLength : Word
  mmapAddr : Word

namespace MultibootInfo

/-- The structure at `mbi`, and the modules it points to. -/
def load (mem : Mem) (mbi : Word) : MultibootInfo where
  flags := ld32 mem mbi
  memLower := ld32 mem (mbi + 4)
  memUpper := ld32 mem (mbi + 8)
  modsCount := ld32 mem (mbi + 20)
  mods := fun i => MultibootModule.load mem (ld32 mem (mbi + 24) + 16 * i)
  mmapLength := ld32 mem (mbi + 44)
  mmapAddr := ld32 mem (mbi + 48)

/-- `flags & (1 << 3)`: the module fields are valid. -/
def hasModules (mbi : MultibootInfo) : Bool := mbi.flags &&& 1#32 <<< 3 ≠ 0

/-- `flags & (1 << 6)`: the memory map fields are valid. -/
def hasMmap (mbi : MultibootInfo) : Bool := mbi.flags &&& 1#32 <<< 6 ≠ 0

/-- `mbi->mmap_addr + mbi->mmap_length` -/
def mmapEnd (mbi : MultibootInfo) : Word := mbi.mmapAddr + mbi.mmapLength

/-- The modules the loader announces. -/
def IsModule (mbi : MultibootInfo) (m : MultibootModule) : Prop :=
  mbi.hasModules = true ∧ ∃ i < mbi.modsCount, m = mbi.mods i

/-! ## Walks over the memory map -/

section Walk

variable {σ τ : Type} (mem : σ → Mem) (after : MultibootMmapEntry → σ → σ) (mbi : Word)

/-- The entries met from `p` on, when the state of the memory moves by `after`
between the reads of an entry and the read of the size that leads to the next. -/
def Walk : Word → σ → List MultibootMmapEntry → Prop
  | p, s, [] => ¬ p < (load (mem s) mbi).mmapEnd
  | p, s, e :: rest =>
    p < (load (mem s) mbi).mmapEnd ∧ e = MultibootMmapEntry.load (mem s) p ∧
      Walk (p + (MultibootMmapEntry.load (mem (after e s)) p).size + 4) (after e s) rest

/-- The entries of the whole map, none when the structure announces no map. -/
structure Entries (s : σ) (es : List MultibootMmapEntry) : Prop where
  walk : (load (mem s) mbi).hasMmap = true → Walk mem after mbi (load (mem s) mbi).mmapAddr s es
  empty : (load (mem s) mbi).hasMmap = false → es = []

variable {mem after mbi}

theorem Walk.unique {p : Word} {s : σ} {es es' : List MultibootMmapEntry}
    (walk : Walk mem after mbi p s es) (walk' : Walk mem after mbi p s es') : es = es' := by
  induction es generalizing p s es' with
  | nil =>
      cases es' with
      | nil => rfl
      | cons e' rest' => exact absurd walk'.1 walk
  | cons e rest ih =>
      cases es' with
      | nil => exact absurd walk.1 walk'
      | cons e' rest' =>
          obtain ⟨_, rfl, tail⟩ := walk
          obtain ⟨_, rfl, tail'⟩ := walk'
          rw [ih tail tail']

theorem Entries.unique {s : σ} {es es' : List MultibootMmapEntry}
    (entries : Entries mem after mbi s es) (entries' : Entries mem after mbi s es') :
    es = es' := by
  cases announced : (load (mem s) mbi).hasMmap with
  | true => exact (entries.walk announced).unique (entries'.walk announced)
  | false => rw [entries.empty announced, entries'.empty announced]

variable {mem' : τ → Mem} {after' : MultibootMmapEntry → τ → τ} {f : σ → τ}

/-- A walk sees no more of the state than `f` keeps. -/
theorem walk_map (same : ∀ s, mem' (f s) = mem s)
    (commutes : ∀ e s, f (after e s) = after' e (f s)) (p : Word) (s : σ)
    (es : List MultibootMmapEntry) :
    Walk mem after mbi p s es ↔ Walk mem' after' mbi p (f s) es := by
  induction es generalizing p s with
  | nil => simp only [Walk, same]
  | cons e rest ih => simp only [Walk, ih, ← commutes, same]

end Walk

instance decidableWalk {σ : Type} (mem : σ → Mem) (after : MultibootMmapEntry → σ → σ)
    (mbi : Word) : (p : Word) → (s : σ) → (es : List MultibootMmapEntry) →
    Decidable (Walk mem after mbi p s es)
  | _, _, [] => inferInstanceAs (Decidable (¬ _))
  | p, s, e :: rest =>
    have := decidableWalk mem after mbi
      (p + (MultibootMmapEntry.load (mem (after e s)) p).size + 4) (after e s) rest
    inferInstanceAs (Decidable (_ ∧ _ ∧ _))

instance {σ : Type} (mem : σ → Mem) (after : MultibootMmapEntry → σ → σ) (mbi : Word) (s : σ)
    (es : List MultibootMmapEntry) : Decidable (Entries mem after mbi s es) :=
  decidable_of_iff (((load (mem s) mbi).hasMmap = true → Walk mem after mbi
      (load (mem s) mbi).mmapAddr s es) ∧ ((load (mem s) mbi).hasMmap = false → es = []))
    ⟨fun both => ⟨both.1, both.2⟩, fun both => ⟨both.walk, both.empty⟩⟩

/-! ## The map the boot loader left -/

/-- The memory map as a list, all of it read from one memory. -/
def Mmap (mem : Mem) (mbi : Word) (es : List MultibootMmapEntry) : Prop :=
  Entries id (fun _ mem => mem) mbi mem es

instance (mem : Mem) (mbi : Word) (es : List MultibootMmapEntry) : Decidable (Mmap mem mbi es) :=
  inferInstanceAs (Decidable (Entries ..))

/-- The walk over the memory map comes to address `p`. -/
inductive Visits (mem : Mem) (mbi : Word) : Word → Prop
  | start : Visits mem mbi (load mem mbi).mmapAddr
  | next {p : Word} (visits : Visits mem mbi p) (inside : p < (load mem mbi).mmapEnd) :
      Visits mem mbi (p + (MultibootMmapEntry.load mem p).size + 4)

/-- The buffer of the memory map does not wrap, and every entry met in it
carries a size of at least 20 and ends inside it. -/
structure WellFormedMmap (mem : Mem) (mbi : Word) : Prop where
  buffer : (load mem mbi).mmapAddr.toNat + (load mem mbi).mmapLength.toNat ≤ 2 ^ 32
  sized : ∀ p, Visits mem mbi p → p < (load mem mbi).mmapEnd →
    20 ≤ (MultibootMmapEntry.load mem p).size.toNat
  ends : ∀ p, Visits mem mbi p → p < (load mem mbi).mmapEnd →
    p.toNat + (MultibootMmapEntry.load mem p).size.toNat + 4 ≤
      (load mem mbi).mmapAddr.toNat + (load mem mbi).mmapLength.toNat

/-- The rest of the buffer shrinks with every entry, so the walk ends. -/
theorem WellFormedMmap.walk {mem : Mem} {mbi : Word} (wellFormed : WellFormedMmap mem mbi)
    {p : Word} (visits : Visits mem mbi p) :
    ∃ es, Walk id (fun _ mem => mem) mbi p mem es := by
  induction rest : (load mem mbi).mmapAddr.toNat + (load mem mbi).mmapLength.toNat - p.toNat using
    Nat.strong_induction_on generalizing p with
  | _ rest ih =>
      by_cases inside : p < (load mem mbi).mmapEnd
      · have buffer := wellFormed.buffer
        have sized := wellFormed.sized p visits inside
        have ends := wellFormed.ends p visits inside
        have positive : (load mem mbi).mmapEnd.toNat ≠ 0 := by
          rw [BitVec.lt_def] at inside
          omega
        have next : (p + (MultibootMmapEntry.load mem p).size + 4).toNat =
            p.toNat + (MultibootMmapEntry.load mem p).size.toNat + 4 := by
          rw [mmapEnd, BitVec.toNat_add] at positive
          bv_omega
        obtain ⟨es, walk⟩ := ih _ (by omega) (visits.next inside) rfl
        exact ⟨MultibootMmapEntry.load mem p :: es, inside, rfl, walk⟩
      · exact ⟨[], inside⟩

theorem WellFormedMmap.mmap {mem : Mem} {mbi : Word} (wellFormed : WellFormedMmap mem mbi) :
    ∃ es, Mmap mem mbi es := by
  obtain ⟨es, walk⟩ := wellFormed.walk .start
  by_cases announced : (load mem mbi).hasMmap = true
  · exact ⟨es, fun _ => walk, fun absent => absurd (announced.symm.trans absent) (by simp)⟩
  · exact ⟨[], fun present => absurd present announced, fun _ => rfl⟩

/-- The bytes of the structures that are read from the memory map on: the flags,
the two fields of the map and the entries of the map. -/
def MapBytes (mem : Mem) (mbi x : Word) : Prop :=
  Within mbi 4 x ∨ (load mem mbi).hasMmap = true ∧ (Within (mbi + 44) 8 x ∨
    ∃ p, Visits mem mbi p ∧ p < (load mem mbi).mmapEnd ∧ Within p 24 x)

section Agreement

variable {touched : Word → Prop} {mem mem' : Mem} (agree : AgreeOff touched mem mem')

include agree

theorem entry_load_eq {p : Word} (off : ∀ x, Within p 24 x → ¬ touched x) :
    MultibootMmapEntry.load mem' p = MultibootMmapEntry.load mem p := by
  have word : ∀ d ≤ 20, ld32 mem' (p + BitVec.ofNat 32 d) = ld32 mem (p + BitVec.ofNat 32 d) :=
    fun d bound => agree.ld32_eq fun x member => off x (member.offset (by omega))
  have first : ld32 mem' p = ld32 mem p := by simpa using word 0 (by simp)
  have addrLow : ld32 mem' (p + 4) = ld32 mem (p + 4) := word 4 (by simp)
  have addrHigh : ld32 mem' (p + 8) = ld32 mem (p + 8) := word 8 (by simp)
  have lenLow : ld32 mem' (p + 12) = ld32 mem (p + 12) := word 12 (by simp)
  have lenHigh : ld32 mem' (p + 16) = ld32 mem (p + 16) := word 16 (by simp)
  have type : ld32 mem' (p + 20) = ld32 mem (p + 20) := word 20 (by simp)
  rw [MultibootMmapEntry.load, first, addrLow, addrHigh, lenLow, lenHigh, type,
    MultibootMmapEntry.load]

variable {mbi : Word}

theorem hasMmap_eq (off : ∀ x, Within mbi 4 x → ¬ touched x) :
    (load mem' mbi).hasMmap = (load mem mbi).hasMmap := by
  have flags : (load mem' mbi).flags = (load mem mbi).flags := agree.ld32_eq off
  rw [hasMmap, flags, hasMmap]

theorem mmap_fields_eq (off : ∀ x, Within (mbi + 44) 8 x → ¬ touched x) :
    (load mem' mbi).mmapAddr = (load mem mbi).mmapAddr ∧
      (load mem' mbi).mmapEnd = (load mem mbi).mmapEnd := by
  have addr : (load mem' mbi).mmapAddr = (load mem mbi).mmapAddr := by
    refine agree.ld32_eq fun x member => off x ?_
    have split : mbi + 48 = mbi + 44 + BitVec.ofNat 32 4 := by grind
    rw [split] at member
    exact member.offset (by simp)
  have length : (load mem' mbi).mmapLength = (load mem mbi).mmapLength :=
    agree.ld32_eq fun x member => off x (member.mono (by simp))
  exact ⟨addr, by rw [mmapEnd, mmapEnd, addr, length]⟩

end Agreement

end MultibootInfo

/-! ## A boot loader -/

/-- Words from `base` on, zero behind them. -/
def wordsAt (base : Word) (ws : List Word) : Mem := fun x =>
  let offset := (x - base).toNat
  (ws.getD (offset / 4) 0).extractLsb' (8 * (offset % 4)) 8

/-- RAM with the information structure at 0x9000, the memory map behind it and
the modules behind the map; all other bytes are zero. -/
def loaderMem (flags memLower memUpper : Word) (mmap : List MultibootMmapEntry)
    (mods : List MultibootModule) : Mem :=
  let mmapLength := BitVec.ofNat 32 (24 * mmap.length)
  wordsAt 0x9000 <|
    [flags, memLower, memUpper, 0, 0, BitVec.ofNat 32 mods.length, 0x9034 + mmapLength,
      0, 0, 0, 0, mmapLength, 0x9034] ++
    mmap.flatMap (fun e => [e.size, e.addrLow, e.addrHigh, e.lenLow, e.lenHigh, e.type]) ++
    mods.flatMap fun m => [m.modStart, m.modEnd, 0, 0]

end OrbitOs.Kernel
