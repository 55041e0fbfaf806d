import OrbitOs.Base.Runs
import OrbitOs.Drivers.E1000
import OrbitOs.Fs.InitrdAccess
import OrbitOs.Memory.PmmProtection
import OrbitOs.Process.Access

/-!
# The kernel with paging enabled

The functions that `kernel_main` calls once paging is on, as steps of one
system.  Each of them uses physical addresses as pointers, so each access has
to find its page mapped to itself.  An access is logged with the memory of its
moment as if the ones before it had gone where their addresses say; up to the
first access that does not, this is what the machine does.
-/

set_option autoImplicit false

namespace OrbitOs.Kernel

open OrbitOs.Machine OrbitOs.Base OrbitOs.Memory OrbitOs.Fs OrbitOs.Drivers

/-- The state that the functions share. -/
structure System where
  kernel : Process.Kernel
  pageDirectory : Word
  /-- `process_initialize` has run. -/
  processes : Bool
  initrd : Initrd
  e1000 : E1000

inductive Call
  | vmmMapPage (c : Vmm.MapCall)
  | processInitialize
  | processCreateThread (threadExit entryPoint : Word)
  /-- `bar0` is what the scan of the PCI bus finds. -/
  | e1000Initialize (bar0 : Option Word) (register : Word → Word)
  | initrdInitialize (location : Word)
  | fsRead (n : NodeRef) (offset size buffer : Word)

namespace System

def mem (s : System) : Mem := s.kernel.mem

def cr3 (s : System) : Word := s.kernel.cpu.cr3

def vmm (s : System) : Vmm := ⟨s.kernel.pmm, s.pageDirectory⟩

def withVmm (s : System) (vmm : Vmm) : System :=
  { s with kernel := { s.kernel with pmm := vmm.pmm }, pageDirectory := vmm.pageDirectory }

/-- `none` when the call does not return. -/
def perform (s : System) : Call → Option System
  | .vmmMapPage c => some (s.withVmm (s.vmm.apply c))
  | .processInitialize => some { s with kernel := s.kernel.processInitialize, processes := true }
  | .processCreateThread threadExit entryPoint =>
    (s.kernel.processCreateThread threadExit entryPoint).map fun (kernel, _) =>
      { s with kernel := kernel }
  | .e1000Initialize bar0 register =>
    let (vmm, e1000) := E1000.e1000Initialize bar0 register s.vmm s.e1000
    some { s.withVmm vmm with e1000 := e1000 }
  | .initrdInitialize location =>
    (Initrd.initrdInitialize s.mem location s.initrd).val.map fun initrd =>
      { s with initrd := initrd }
  | .fsRead n offset size buffer =>
    some { s with
      kernel := s.kernel.withMem (Initrd.fsRead s.initrd s.mem n offset size buffer).val.1 }

/-- The accesses to memory. -/
def accesses (s : System) : Call → List Access
  | .vmmMapPage c => s.vmm.mapAccesses s.cr3 c
  | .processInitialize => (Process.watchInitialize s.kernel).accesses
  | .processCreateThread threadExit entryPoint =>
    Process.createAccesses threadExit entryPoint s.kernel
  | .e1000Initialize bar0 _ => E1000.e1000Accesses s.cr3 bar0 s.vmm
  | .initrdInitialize location => Initrd.mountAccesses s.cr3 s.mem location s.initrd
  | .fsRead n offset size buffer =>
    Initrd.fsReadAccesses s.cr3 s.initrd s.mem n offset size buffer

/-- The accesses to registers of devices. -/
def mmioAccesses (s : System) : Call → List Access
  | .e1000Initialize bar0 _ => E1000.registerAccesses s.cr3 bar0 s.vmm
  | _ => []

/-- The call finds all its memory mapped, and mapped to itself unless it is MMIO. -/
structure Finds (s : System) (call : Call) : Prop where
  memory : ∀ a ∈ s.accesses call, a.Mapped
  mmio : ∀ a ∈ s.mmioAccesses call, a.Present

/-- The state when `vmm_initialize` has mapped the first 16 MB and enabled paging. -/
structure Boots (kernelEnd mbi : Word) (mem : Mem) (s : System) : Prop where
  initialized : ∃ fuel pmm, Pmm.pmmInitialize fuel kernelEnd mbi mem = some pmm ∧
    Vmm.IdentityMapCompletes pmm ∧ Vmm.vmmInitialize pmm = some s.vmm
  cr3 : s.cr3 = s.pageDirectory
  processes : s.processes = false
  initrd : s.initrd = Initrd.bss

/-! ## The condition -/

/-- The blocks that are free after `pmm_initialize`. -/
def bootFree (kernelEnd : Word) (info : MultibootInfo) (mem : Mem)
    (es : List MultibootMmapEntry) : Set ℕ :=
  {k | k < (Pmm.maxBlocksOf info).toNat ∧ Pmm.FreeAtBoot kernelEnd info mem es k}

/-- The layout of the boot: the watermark covers the protected memory, and the
kernel, the bitmap and the first five blocks are in the first 16 MB. -/
structure Fits (kernelEnd : Word) (info : MultibootInfo) (mem : Mem)
    (es : List MultibootMmapEntry) : Prop where
  covered : Pmm.Covered kernelEnd info mem es
  bitmap : Pmm.bitmapEnd kernelEnd info ≤ 0x1000000
  tables : ∀ b ∈ lowest (bootFree kernelEnd info mem es) 5, b < 4096

/-- `x` is in the kernel image, in a control block on the run queue or in a file. -/
def InUse (kernelEnd : Word) (s : System) (x : Word) : Prop :=
  (0x100000 ≤ x ∧ x < kernelEnd) ∨ (s.processes = true ∧ s.kernel.OfProcess x) ∨
    s.initrd.OfFile x

/-- What the call needs of its arguments and of the state before it: blocks and
bytes of the first 16 MB, and that it maps no page of them elsewhere. -/
def Meets (s : System) : Call → Prop
  | .vmmMapPage c => Vmm.FlagBits c.flags ∧ s.vmm.NewTableLow c ∧ Vmm.KeepsWindow c
  | .processInitialize => s.vmm.NextLow 1
  | .processCreateThread _ _ => s.processes = true ∧ s.vmm.NextLow 2
  | .e1000Initialize none _ => True
  | .e1000Initialize (some bar0) _ =>
    s.vmm.NextLow (s.vmm.emptySlots (E1000.mmioCalls (E1000.physAddr bar0))).card ∧
      E1000.RegistersMapped s.vmm (E1000.physAddr bar0)
  | .initrdInitialize location =>
    Initrd.NamesEnd s.mem location ∧ ∀ x, Initrd.OfArchive s.mem location x → Vmm.InWindow x
  | .fsRead n offset size buffer =>
    ((s.initrd.node n).read = true → Initrd.InFile (s.initrd.node n) offset size) ∧
      ∀ x, s.initrd.Filled n offset size buffer x → Vmm.InWindow x ∧
        ¬ s.vmm.OwnMemory x ∧ ¬ (s.processes = true ∧ s.kernel.OfProcess x)

/-- One call under its condition. -/
def Steps (s s' : System) : Prop := ∃ call, s.Meets call ∧ s.perform call = some s'

/-! ## The invariant -/

structure Inv (kernelEnd : Word) (s : System) : Prop where
  cr3 : s.cr3 = s.pageDirectory
  safe : s.vmm.Safe (s.InUse kernelEnd)
  zero : s.kernel.pmm.Holdable 0
  zeroApart : s.vmm.NotTable 0
  queue : s.processes = true → ∀ p, s.kernel.OnQueue p →
    ∃ b, p = blockAddr b ∧ s.kernel.pmm.Holdable b ∧ s.vmm.NotTable b

theorem freeBlocks_booted {kernelEnd : Word} {info : MultibootInfo} {mem : Mem}
    {es : List MultibootMmapEntry} {pmm : Pmm} (booted : Pmm.Booted kernelEnd info mem es pmm) :
    pmm.freeBlocks = bootFree kernelEnd info mem es := by
  ext k
  rw [Pmm.mem_freeBlocks, booted.maxBlocks]
  refine and_congr_right fun bound => booted.bits k ?_
  have := (Pmm.maxBlocksOf info).isLt
  omega

theorem Boots.initialized_of_covered {kernelEnd mbi : Word} {mem : Mem}
    {es : List MultibootMmapEntry} {s : System} (kernelHigh : 0x100000 ≤ kernelEnd)
    (met : Pmm.Met kernelEnd mbi mem es)
    (covered : Pmm.Covered kernelEnd (MultibootInfo.load mem mbi) mem es)
    (boots : Boots kernelEnd mbi mem s) :
    ∃ pmm, Pmm.Booted kernelEnd (MultibootInfo.load mem mbi) mem es pmm ∧
      pmm.Sound ∧ (∃ v, Vmm.vmmNewDirectory pmm = some v) ∧ Vmm.Initialized pmm s.vmm := by
  obtain ⟨fuel, pmm, finishes, completes, begun⟩ := boots.initialized
  have booted := Pmm.pmmInitialize_booted finishes met
  have sound := (covered.guarded kernelHigh booted).sound booted
  have initialized := Vmm.vmmInitialize_initialized sound completes begun
  obtain ⟨v, created, -⟩ := completes
  exact ⟨pmm, booted, sound, ⟨v, created⟩, initialized⟩

/-- After the boot everything in use is in the first 16 MB. -/
theorem Boots.inv {kernelEnd mbi : Word} {mem : Mem} {es : List MultibootMmapEntry} {s : System}
    (kernelHigh : 0x100000 ≤ kernelEnd) (met : Pmm.Met kernelEnd mbi mem es)
    (fits : Fits kernelEnd (MultibootInfo.load mem mbi) mem es)
    (boots : Boots kernelEnd mbi mem s) : s.Inv kernelEnd := by
  obtain ⟨pmm, booted, sound, ⟨v, created⟩, initialized⟩ :=
    boots.initialized_of_covered kernelHigh met fits.covered
  generalize MultibootInfo.load mem mbi = info at booted fits
  have noWrap : Pmm.bitmapEnd kernelEnd info < 2 ^ 32 := fits.bitmap.trans_lt (by simp)
  have aboveKernel := Pmm.kernelEnd_le_safeMemStart kernelEnd info
  rw [BitVec.le_def] at aboveKernel kernelHigh
  have inBitmap : ∀ x, pmm.InBitmapWords x → (Pmm.safeMemStart kernelEnd info).toNat ≤ x.toNat ∧
      x.toNat < 0x1000000 := by
    intro x member
    unfold Pmm.InBitmapWords at member
    rw [booted.bitmap, booted.maxBlocks] at member
    have bounds := (Pmm.inBitmap_iff noWrap x).mp member
    have top := fits.bitmap
    omega
  have free := freeBlocks_booted booted
  have zero : pmm.Holdable 0 := by
    obtain ⟨d, pmm', allocates, -, -⟩ := Vmm.vmmNewDirectory_spec sound created
    have nonempty : 0 < pmm.maxBlocks.toNat :=
      Nat.zero_lt_of_lt (Pmm.mem_freeBlocks.mp allocates.wasFree).1
    refine ⟨nonempty, ?_, fun x inBlock member => ?_⟩
    · by_contra clear
      exact sound.zeroUsed (Pmm.mem_freeBlocks.mpr ⟨nonempty, Bool.eq_false_iff.mpr clear⟩)
    · have low := (inBitmap x member).1
      have start : (0x100000 : Word).toNat = 0x100000 := rfl
      rw [InBlock] at inBlock
      omega
  have inWindow : ∀ x, s.InUse kernelEnd x ∨ s.vmm.OwnMemory x → Vmm.InWindow x := by
    unfold Vmm.InWindow
    rintro x ((⟨-, inKernel⟩ | ⟨running, -⟩ | ⟨n, read, -⟩) | inWords | inTables)
    · rw [BitVec.lt_def] at inKernel
      have top := fits.bitmap
      unfold Pmm.bitmapEnd at top
      omega
    · rw [boots.processes] at running
      contradiction
    · rw [boots.initrd] at read
      cases n <;> contradiction
    · exact (inBitmap x (initialized.words ▸ inWords)).2
    · have low := fits.tables _ (free ▸ initialized.tables x inTables)
      omega
  refine ⟨boots.cr3, ⟨initialized.represents, fun x inside => ?_, inWindow⟩,
    initialized.keeps 0 zero, fun x inBlock inTables => ?_, fun running => ?_⟩
  · exact (initialized.walk x).trans (if_pos inside)
  · have low := (initialized.tables x inTables).1
    rw [inBlock] at low
    exact sound.zeroUsed low
  · rw [boots.processes] at running
    contradiction

/-! ## The calls -/

theorem nextLow_first {v : Vmm} {n : ℕ} (low : v.NextLow n) (positive : 1 ≤ n) {p : ℕ}
    (handed : Process.Handed v.pmm.freeBlocks p) : p < 4096 := by
  rcases handed with least | ⟨-, rfl⟩
  · exact low p (lowest_mono positive (mem_lowest_one least))
  · exact Nat.succ_pos 4095

theorem nextLow_second {v : Vmm} (low : v.NextLow 2) {p q : ℕ}
    (first : Process.Handed v.pmm.freeBlocks p)
    (second : Process.Handed (v.pmm.freeBlocks \ {p}) q) : q < 4096 := by
  rcases second with next | ⟨-, rfl⟩
  · rcases first with least | ⟨full, -⟩
    · exact low q (mem_lowest_two least next)
    · have inFree := next.1.1
      rw [full] at inFree
      contradiction
  · exact Nat.succ_pos 4095

variable {kernelEnd : Word} {s s' : System}

theorem Inv.sound (inv : s.Inv kernelEnd) : s.kernel.pmm.Sound := by
  obtain ⟨d, t, rep⟩ := inv.safe.represents
  exact rep.sound

/-- The block an allocation hands out is mapped to itself, and no table is in it. -/
theorem Inv.handed (inv : s.Inv kernelEnd) {free : Set ℕ} (sub : free ⊆ s.kernel.pmm.freeBlocks)
    {p : ℕ} (handed : Process.Handed free p) : s.vmm.NotTable p := by
  obtain ⟨d, t, rep⟩ := inv.safe.represents
  rcases handed with least | ⟨-, rfl⟩
  · exact rep.notTable_of_free (sub least.1)
  · exact inv.zeroApart

/-- `process_initialize` and `process_create_thread` see the queue of the state before. -/
theorem Inv.queueHeld (inv : s.Inv kernelEnd) (running : s.processes = true) :
    s.kernel.QueueHeld := fun p onQueue => by
  obtain ⟨b, same, held, -⟩ := inv.queue running p onQueue
  exact ⟨b, same, held⟩

theorem Inv.ofProcess (inv : s.Inv kernelEnd) (running : s.processes = true) {x : Word}
    (inProcess : s.kernel.OfProcess x) : ∃ b, InBlock b x ∧ s.kernel.pmm.Holdable b ∧
      s.vmm.NotTable b := by
  obtain ⟨p, onQueue, inControl⟩ := inProcess
  obtain ⟨b, rfl, held, apart⟩ := inv.queue running p onQueue
  exact ⟨b, Process.within_controlBlock (inv.sound.holdable_lt held) (by simp) inControl, held,
    apart⟩

theorem Inv.processInitialize (inv : s.Inv kernelEnd) (low : s.vmm.NextLow 1) :
    (∀ a ∈ s.accesses .processInitialize, a.Mapped) ∧
      Inv kernelEnd { s with kernel := s.kernel.processInitialize, processes := true } := by
  obtain ⟨p, starts⟩ := Process.watchInitialize_starts inv.sound inv.zero
  obtain ⟨d, t, rep⟩ := inv.safe.represents
  have bound := starts.sound.holdable_lt starts.held
  have apart := inv.handed subset_rfl starts.handed
  have inBlock : ∀ x, Within (blockAddr p) 20 x → InBlock p x := fun x =>
    Process.within_controlBlock bound (by simp)
  have inWindow : ∀ x, Within (blockAddr p) 20 x → Vmm.InWindow x := fun x inControl =>
    Vmm.inWindow_of_inBlock (nextLow_first low le_rfl starts.handed) (inBlock x inControl)
  have off : ∀ x, s.vmm.OfTables x → ¬ Process.InitTouches s.kernel p x := by
    rintro x inTables (inBitmap | inControl)
    · exact rep.bitmap_apart x inTables inBitmap
    · exact apart x (inBlock x inControl) inTables
  have other : s.vmm.Elsewhere (Process.InitTouches s.kernel p) s.kernel.processInitialize.pmm :=
    ⟨starts.sound, fun b held => (starts.keeps b held).1, starts.words, starts.mem, off⟩
  have rest : s.kernel.processInitialize = { s.kernel with
      pmm := s.kernel.processInitialize.pmm
      nextPid := s.kernel.nextPid + 1
      currentProcess := blockAddr p
      processQueue := blockAddr p } := starts.rest
  have onQueue : ∀ n, s.kernel.processInitialize.OnQueue n → n = blockAddr p := by
    rintro n ⟨count, rfl⟩
    have head : s.kernel.processInitialize.processQueue = blockAddr p := by rw [rest]
    rw [head]
    exact Function.iterate_fixed starts.next count
  have directory : s.kernel.cpu.cr3 = s.pageDirectory := inv.cr3
  refine ⟨fun a member => ?_, ?_, ?_, ?_, ?_, ?_⟩
  · refine rep.reaches_mapped (directory ▸ starts.accesses a member) off ?_
    rintro x (inBitmap | inControl)
    · exact inv.safe.window x (inv.safe.low x (Or.inr (Or.inl inBitmap)))
    · exact inv.safe.window x (inWindow x inControl)
  · unfold System.cr3
    rw [rest]
    exact directory
  · refine inv.safe.elsewhere other ?_
    rintro x (inKernel | ⟨-, n, reached, inControl⟩ | inFile)
    · exact Or.inl (Or.inl inKernel)
    · rw [onQueue n reached] at inControl
      exact Or.inr (inWindow x inControl)
    · exact Or.inl (Or.inr (Or.inr inFile))
  · exact (starts.keeps 0 inv.zero).1
  · exact (inv.safe.notTable_elsewhere other 0).mpr inv.zeroApart
  · intro _ n reached
    exact ⟨p, onQueue n reached, starts.held, (inv.safe.notTable_elsewhere other p).mpr apart⟩

theorem Inv.processCreateThread (inv : s.Inv kernelEnd) (running : s.processes = true)
    (low : s.vmm.NextLow 2) (threadExit entryPoint : Word) :
    (∀ a ∈ s.accesses (.processCreateThread threadExit entryPoint), a.Mapped) ∧
      ∀ k' proc, s.kernel.processCreateThread threadExit entryPoint = some (k', proc) →
        Inv kernelEnd { s with kernel := k' } := by
  have queueHeld := inv.queueHeld running
  obtain ⟨p, q, first, second, pBound, qBound, accesses, adds⟩ :=
    Process.exists_adds threadExit entryPoint inv.sound inv.zero queueHeld
  obtain ⟨d, t, rep⟩ := inv.safe.represents
  have directory : s.kernel.cpu.cr3 = s.pageDirectory := inv.cr3
  have pApart := inv.handed subset_rfl first
  have qApart := inv.handed Set.sdiff_subset second
  have inControl : ∀ x, Within (blockAddr p) 20 x → InBlock p x := fun x =>
    Process.within_controlBlock pBound (by simp)
  have pWindow : ∀ x, Within (blockAddr p) 20 x → Vmm.InWindow x := fun x inNew =>
    Vmm.inWindow_of_inBlock (nextLow_first low (by simp) first) (inControl x inNew)
  have off : ∀ x, s.vmm.OfTables x → ¬ Process.AddTouches s.kernel p q x := by
    rintro x inTables (inBitmap | inNew | inFrame | inProcess)
    · exact rep.bitmap_apart x inTables inBitmap
    · exact pApart x (inControl x inNew) inTables
    · exact qApart x (Process.within_frame qBound inFrame) inTables
    · obtain ⟨b, inBlock, -, apart⟩ := inv.ofProcess running inProcess
      exact apart x inBlock inTables
  refine ⟨fun a member => ?_, fun k' proc created => ?_⟩
  · refine rep.reaches_mapped (directory ▸ accesses a member) off ?_
    rintro x (inBitmap | inNew | inFrame | inProcess)
    · exact inv.safe.window x (inv.safe.low x (Or.inr (Or.inl inBitmap)))
    · exact inv.safe.window x (pWindow x inNew)
    · exact inv.safe.window x (Vmm.inWindow_of_inBlock (nextLow_second low first second)
        (Process.within_frame qBound inFrame))
    · exact inv.safe.window x (inv.safe.low x (Or.inl (Or.inr (Or.inl ⟨running, inProcess⟩))))
  · obtain ⟨mem, sound, pHeld, keeps, words, queue, rest⟩ := adds k' proc created
    have other : s.vmm.Elsewhere (Process.AddTouches s.kernel p q) k'.pmm :=
      ⟨sound, fun b held => (keeps b held).1, words, mem, off⟩
    refine ⟨?_, ?_, (keeps 0 inv.zero).1, (inv.safe.notTable_elsewhere other 0).mpr inv.zeroApart,
      fun _ n reached => ?_⟩
    · unfold System.cr3
      rw [rest]
      exact directory
    · refine inv.safe.elsewhere other ?_
      rintro x (inKernel | ⟨-, n, reached, inNode⟩ | inFile)
      · exact Or.inl (Or.inl inKernel)
      · rcases queue n reached with old | rfl
        · exact Or.inl (Or.inr (Or.inl ⟨running, n, old, inNode⟩))
        · exact Or.inr (pWindow x inNode)
      · exact Or.inl (Or.inr (Or.inr inFile))
    · rcases queue n reached with old | rfl
      · obtain ⟨b, same, held, apart⟩ := inv.queue running n old
        exact ⟨b, same, (keeps b held).1, (inv.safe.notTable_elsewhere other b).mpr apart⟩
      · exact ⟨p, rfl, pHeld, (inv.safe.notTable_elsewhere other p).mpr pApart⟩

/-- Calls of `vmm_map_page` leave the run queue alone. -/
theorem Inv.later (inv : s.Inv kernelEnd) {v : Vmm} (later : Vmm.Later s.vmm v)
    (safe : v.Safe (s.InUse kernelEnd)) : (s.withVmm v).Inv kernelEnd := by
  have follow : s.processes = true → ∀ p, s.kernel.OnQueue p →
      (s.withVmm v).kernel.follow p = s.kernel.follow p := by
    intro running p onQueue
    obtain ⟨b, rfl, held, apart⟩ := inv.queue running p onQueue
    have bound := inv.sound.holdable_lt held
    have agree : AgreeOff (fun x => ¬ InBlock b x) s.kernel.mem (s.withVmm v).kernel.mem :=
      fun x inBlock => later.block b held apart x (not_not.mp inBlock)
    refine Process.Kernel.field_agreeOff agree fun x member outside => ?_
    exact outside (inBlock_of_within_wordAddr bound (by decide) member)
  have onQueue : s.processes = true → ∀ p,
      (s.withVmm v).kernel.OnQueue p ↔ s.kernel.OnQueue p := by
    intro running
    refine Process.Kernel.onQueue_iff ?_ (follow running)
    rfl
  have sameUse : ∀ x, (s.withVmm v).InUse kernelEnd x → s.InUse kernelEnd x := by
    rintro x (inKernel | ⟨running, n, reached, inNode⟩ | inFile)
    · exact Or.inl inKernel
    · exact Or.inr (Or.inl ⟨running, n, (onQueue running n).mp reached, inNode⟩)
    · exact Or.inr (Or.inr inFile)
  refine ⟨?_, ?_, (later.keeps 0 inv.zero).1, (later.keeps 0 inv.zero).2 inv.zeroApart,
    fun running p reached => ?_⟩
  · exact inv.cr3.trans later.directory.symm
  · exact ⟨safe.represents, safe.window, fun x member => safe.low x (member.imp_left (sameUse x))⟩
  · obtain ⟨b, same, held, apart⟩ := inv.queue running p ((onQueue running p).mp reached)
    exact ⟨b, same, (later.keeps b held).1, (later.keeps b held).2 apart⟩

theorem Inv.vmmMapPage (inv : s.Inv kernelEnd) {c : Vmm.MapCall}
    (flagBits : Vmm.FlagBits c.flags) (newTable : s.vmm.NewTableLow c)
    (keeps : Vmm.KeepsWindow c) :
    (∀ a ∈ s.accesses (.vmmMapPage c), a.Mapped) ∧ (s.withVmm (s.vmm.apply c)).Inv kernelEnd := by
  obtain ⟨safe, maps⟩ := inv.safe.apply flagBits newTable keeps
  refine ⟨fun a member => ?_, inv.later maps.later safe⟩
  unfold accesses at member
  rw [inv.cr3] at member
  exact inv.safe.mapAccesses_mapped flagBits newTable a member

theorem Inv.e1000Initialize (inv : s.Inv kernelEnd) {bar0 : Word} (register : Word → Word)
    (newTables : s.vmm.NextLow (s.vmm.emptySlots (E1000.mmioCalls (E1000.physAddr bar0))).card)
    (registers : E1000.RegistersMapped s.vmm (E1000.physAddr bar0)) :
    s.Finds (.e1000Initialize (some bar0) register) ∧
      (s.withVmm ((E1000.mmioCalls (E1000.physAddr bar0)).foldl Vmm.apply s.vmm)).Inv
        kernelEnd := by
  obtain ⟨safe, later, all⟩ := inv.safe.run _ (E1000.mmioCalls_flagBits _)
    (E1000.mmioCalls_keepsWindow _) newTables
  obtain ⟨d, t, rep⟩ := inv.safe.represents
  refine ⟨⟨fun a member => ?_, fun a member x inAccess => ?_⟩, inv.later later safe⟩
  · unfold accesses at member
    rw [inv.cr3] at member
    exact all a member
  · obtain ⟨mem, cr3, inRegister⟩ := E1000.mem_registerAccesses member
    have present := E1000.registers_present rep registers (inRegister x inAccess)
    rw [Vmm.walk_eq_translate, later.directory] at present
    rw [mem, cr3, inv.cr3]
    exact present

theorem Inv.initrdInitialize (inv : s.Inv kernelEnd) {location : Word}
    (names : Initrd.NamesEnd s.mem location)
    (low : ∀ x, Initrd.OfArchive s.mem location x → Vmm.InWindow x) :
    (∀ a ∈ s.accesses (.initrdInitialize location), a.Mapped) ∧
      ∀ initrd, (Initrd.initrdInitialize s.mem location s.initrd).val = some initrd →
        Inv kernelEnd { s with initrd := initrd } := by
  obtain ⟨d, t, rep⟩ := inv.safe.represents
  refine ⟨fun a member => ?_, fun initrd mounted => ?_⟩
  · have reaches := Initrd.mem_mountAccesses names member
    rw [inv.cr3] at reaches
    exact rep.reaches_mapped reaches (fun x _ => id) fun x inArchive =>
      inv.safe.window x (low x inArchive)
  · refine ⟨inv.cr3, ⟨⟨d, t, rep⟩, inv.safe.window, fun x member => ?_⟩, inv.zero, inv.zeroApart,
      inv.queue⟩
    rcases member with (inKernel | inProcess | inFile) | own
    · exact inv.safe.low x (Or.inl (Or.inl inKernel))
    · exact inv.safe.low x (Or.inl (Or.inr (Or.inl inProcess)))
    · rcases Initrd.ofFile_of_mounted names mounted inFile with old | inArchive
      · exact inv.safe.low x (Or.inl (Or.inr (Or.inr old)))
      · exact low x inArchive
    · exact inv.safe.low x (Or.inr own)

theorem Inv.fsRead (inv : s.Inv kernelEnd) {n : NodeRef} {offset size buffer : Word}
    (inFile : (s.initrd.node n).read = true → Initrd.InFile (s.initrd.node n) offset size)
    (apart : ∀ x, s.initrd.Filled n offset size buffer x → Vmm.InWindow x ∧
      ¬ s.vmm.OwnMemory x ∧ ¬ (s.processes = true ∧ s.kernel.OfProcess x)) :
    (∀ a ∈ s.accesses (.fsRead n offset size buffer), a.Mapped) ∧
      Inv kernelEnd { s with
        kernel := s.kernel.withMem (Initrd.fsRead s.initrd s.mem n offset size buffer).val.1 } := by
  obtain ⟨d, t, rep⟩ := inv.safe.represents
  have off : ∀ x, s.vmm.OfTables x → ¬ s.initrd.Filled n offset size buffer x :=
    fun x inTables filled => (apart x filled).2.1 (Or.inr inTables)
  have clear : ∀ x, s.kernel.pmm.InBitmapWords x → ¬ s.initrd.Filled n offset size buffer x :=
    fun x inBitmap filled => (apart x filled).2.1 (Or.inl inBitmap)
  have agree := Initrd.fsRead_agreeOff inFile s.mem buffer
  generalize (Initrd.fsRead s.initrd s.mem n offset size buffer).val.1 = m at agree ⊢
  have other : s.vmm.Elsewhere (s.initrd.Filled n offset size buffer) (s.kernel.withMem m).pmm :=
    ⟨inv.sound.withMem agree clear, fun b held => held.withMem agree clear, rfl, agree, off⟩
  have onQueue : s.processes = true → ∀ p,
      (s.kernel.withMem m).OnQueue p ↔ s.kernel.OnQueue p := by
    intro running
    refine Process.Kernel.onQueue_iff rfl fun p reached => ?_
    have agreeKernel : AgreeOff _ s.kernel.mem (s.kernel.withMem m).mem := agree
    obtain ⟨b, rfl, -⟩ := inv.queue running p reached
    refine Process.Kernel.field_agreeOff agreeKernel fun x member filled => ?_
    rw [← Process.fieldAddr_blockAddr] at member
    exact (apart x filled).2.2 ⟨running, _, reached, Process.within_field (by decide) member⟩
  refine ⟨fun a member => ?_, inv.cr3, ?_, ?_, ?_, ?_⟩
  · have reaches := Initrd.mem_fsReadAccesses inFile member
    rw [inv.cr3] at reaches
    refine rep.reaches_mapped reaches off ?_
    rintro x (filled | inFile)
    · exact inv.safe.window x (apart x filled).1
    · exact inv.safe.window x (inv.safe.low x (Or.inl (Or.inr (Or.inr inFile))))
  · refine inv.safe.elsewhere other ?_
    rintro x (inKernel | ⟨running, p, reached, inNode⟩ | inFile)
    · exact Or.inl (Or.inl inKernel)
    · exact Or.inl (Or.inr (Or.inl ⟨running, p, (onQueue running p).mp reached, inNode⟩))
    · exact Or.inl (Or.inr (Or.inr inFile))
  · exact other.keeps 0 inv.zero
  · exact (inv.safe.notTable_elsewhere other 0).mpr inv.zeroApart
  · intro running p reached
    obtain ⟨b, same, held, tables⟩ := inv.queue running p ((onQueue running p).mp reached)
    exact ⟨b, same, other.keeps b held, (inv.safe.notTable_elsewhere other b).mpr tables⟩

/-- A call that meets its condition finds its memory, and keeps the invariant. -/
theorem Inv.call (inv : s.Inv kernelEnd) {call : Call} (meets : s.Meets call) :
    s.Finds call ∧ ∀ s', s.perform call = some s' → s'.Inv kernelEnd := by
  have noMmio : ∀ a ∈ ([] : List Access), a.Present := fun a member =>
    absurd member List.not_mem_nil
  cases call with
  | vmmMapPage c =>
      obtain ⟨flagBits, newTable, keeps⟩ := meets
      obtain ⟨finds, kept⟩ := inv.vmmMapPage flagBits newTable keeps
      exact ⟨⟨finds, noMmio⟩, fun s' performed => Option.some.inj performed ▸ kept⟩
  | processInitialize =>
      obtain ⟨finds, kept⟩ := inv.processInitialize meets
      exact ⟨⟨finds, noMmio⟩, fun s' performed => Option.some.inj performed ▸ kept⟩
  | processCreateThread threadExit entryPoint =>
      obtain ⟨running, low⟩ := meets
      obtain ⟨finds, kept⟩ := inv.processCreateThread running low threadExit entryPoint
      refine ⟨⟨finds, noMmio⟩, fun s' performed => ?_⟩
      obtain ⟨⟨k', proc⟩, created, rfl⟩ := Option.map_eq_some_iff.mp performed
      exact kept k' proc created
  | e1000Initialize bar0 register =>
      cases bar0 with
      | none =>
          refine ⟨⟨fun a member => absurd member List.not_mem_nil, noMmio⟩, fun s' performed => ?_⟩
          cases performed
          exact inv
      | some bar0 =>
          obtain ⟨newTables, registers⟩ := meets
          obtain ⟨finds, kept⟩ := inv.e1000Initialize register newTables registers
          refine ⟨finds, fun s' performed => ?_⟩
          cases performed
          exact ⟨kept.cr3, kept.safe, kept.zero, kept.zeroApart, kept.queue⟩
  | initrdInitialize location =>
      obtain ⟨names, low⟩ := meets
      obtain ⟨finds, kept⟩ := inv.initrdInitialize names low
      refine ⟨⟨finds, noMmio⟩, fun s' performed => ?_⟩
      obtain ⟨initrd, mounted, rfl⟩ := Option.map_eq_some_iff.mp performed
      exact kept initrd mounted
  | fsRead n offset size buffer =>
      obtain ⟨inFile, apart⟩ := meets
      obtain ⟨finds, kept⟩ := inv.fsRead inFile apart
      exact ⟨⟨finds, noMmio⟩, fun s' performed => Option.some.inj performed ▸ kept⟩

/-! ## Runs -/

/-- The kernel image is mapped to itself. -/
theorem Inv.image (inv : s.Inv kernelEnd) :
    Access.Mapped ⟨s.mem, s.cr3, 0x100000, kernelEnd.toNat - 0x100000⟩ := by
  intro x (member : Within 0x100000 (kernelEnd.toNat - 0x100000) x)
  have start : (0x100000 : Word).toNat = 0x100000 := rfl
  have small := kernelEnd.isLt
  rw [within_iff_of_noWrap (by omega), start] at member
  rw [inv.cr3]
  exact inv.safe.window x (inv.safe.low x (Or.inl (Or.inl
    ⟨BitVec.le_def.mpr (by omega), BitVec.lt_def.mpr (by omega)⟩)))

/-- A layout with five free blocks boots. -/
theorem exists_boots {mbi : Word} {mem : Mem} {es : List MultibootMmapEntry}
    (kernelHigh : 0x100000 ≤ kernelEnd) (met : Pmm.Met kernelEnd mbi mem es)
    (short : ∀ e ∈ es, e.type = multibootMemoryAvailable → e.lenLow.toNat ≤ 2 ^ 32 - 4096)
    (covered : Pmm.Covered kernelEnd (MultibootInfo.load mem mbi) mem es)
    (five : 5 ≤ (bootFree kernelEnd (MultibootInfo.load mem mbi) mem es).encard) :
    ∃ s, Boots kernelEnd mbi mem s := by
  obtain ⟨fuel, pmm, finishes⟩ := Pmm.pmmInitialize_finishes met short
  have booted := Pmm.pmmInitialize_booted finishes met
  have sound := (covered.guarded kernelHigh booted).sound booted
  rw [← freeBlocks_booted booted] at five
  have completes := Vmm.identityMapCompletes_of_five sound five
  obtain ⟨v, begun⟩ : ∃ v, Vmm.vmmInitialize pmm = some v := by
    obtain ⟨v, created, -⟩ := completes
    exact ⟨_, congrArg (Option.map _) created⟩
  let cpu : Cpu := ⟨fun _ => 0, fun _ => 0, 0, 0, v.pageDirectory⟩
  exact ⟨⟨⟨v.pmm, cpu, ⟨0, 0⟩, 0, 0, 1⟩, v.pageDirectory, false, Initrd.bss, E1000.bss⟩,
    ⟨fuel, pmm, finishes, completes, begun⟩, rfl, rfl, rfl⟩

/-- With all free blocks in the first 16 MB so are the next ones. -/
theorem Boots.nextLow {mbi : Word} {mem : Mem} {es : List MultibootMmapEntry}
    (kernelHigh : 0x100000 ≤ kernelEnd) (met : Pmm.Met kernelEnd mbi mem es)
    (covered : Pmm.Covered kernelEnd (MultibootInfo.load mem mbi) mem es)
    (low : ∀ k ∈ bootFree kernelEnd (MultibootInfo.load mem mbi) mem es, k < 4096)
    (boots : Boots kernelEnd mbi mem s) (n : ℕ) : s.vmm.NextLow n := by
  obtain ⟨pmm, booted, -, -, initialized⟩ := boots.initialized_of_covered kernelHigh met covered
  exact fun b member => low b (freeBlocks_booted booted ▸ initialized.free member.1)

/-- Five blocks in a row. -/
theorem five_le_encard {free : Set ℕ} {a : ℕ} (inside : ∀ k, a ≤ k → k < a + 5 → k ∈ free) :
    5 ≤ free.encard := by
  have sub : ((Finset.Ico a (a + 5) : Finset ℕ) : Set ℕ) ⊆ free := fun k member => by
    rw [Finset.mem_coe, Finset.mem_Ico] at member
    exact inside k member.1 member.2
  have five := Set.encard_le_encard sub
  rwa [Set.encard_coe_eq_coe_finsetCard, Nat.card_Ico, Nat.add_sub_cancel_left] at five

/-- The memory map of a machine with one region of memory above 1 MiB. -/
def oneRegion (len : Word) : List MultibootMmapEntry :=
  [⟨20, 0x100000, 0, len, 0, multibootMemoryAvailable⟩]

theorem mem_swept_oneRegion {safe len : Word} (short : 0x100000 + len.toNat ≤ 2 ^ 32) {k : ℕ} :
    k ∈ Pmm.swept safe (oneRegion len) ↔
      256 ≤ k ∧ 4096 * k < 0x100000 + len.toNat ∧ safe.toNat ≤ 4096 * k := by
  rw [Pmm.mem_swept_iff]
  have start : ∀ n, 4096 * n < len.toNat →
      ((0x100000 : Word) + BitVec.ofNat 32 (4096 * n)).toNat = 0x100000 + 4096 * n := by
    intro n bound
    rw [BitVec.toNat_add, BitVec.toNat_ofNat]
    have base : (0x100000 : Word).toNat = 0x100000 := rfl
    omega
  constructor
  · rintro ⟨e, member, -, n, bound, above, index⟩
    cases List.mem_singleton.mp member
    dsimp only at bound above index
    rw [BitVec.le_def, start n bound] at above
    rw [start n bound] at index
    omega
  · rintro ⟨high, below, above⟩
    refine ⟨_, List.mem_singleton_self _, rfl, k - 256, ?_, ?_, ?_⟩
    · dsimp only
      omega
    · rw [BitVec.le_def, start _ (by omega)]
      omega
    · rw [start _ (by omega)]
      omega

/-- The free blocks of such a machine when the fill covers the bitmap. -/
theorem mem_bootFree_oneRegion {info : MultibootInfo} {mem : Mem} {len : Word}
    (short : 0x100000 + len.toNat ≤ 2 ^ 32) (bytes : (Pmm.maxBlocksOf info).toNat % 8 = 0) {k : ℕ} :
    k ∈ bootFree kernelEnd info mem (oneRegion len) ↔ k < (Pmm.maxBlocksOf info).toNat ∧
      256 ≤ k ∧ 4096 * k < 0x100000 + len.toNat ∧
      (Pmm.watermark kernelEnd info).toNat ≤ 4096 * k := by
  unfold bootFree Pmm.FreeAtBoot
  rw [Set.mem_ofPred_eq, mem_swept_oneRegion short]
  refine and_congr_right fun bound => or_iff_left ?_
  omega

/-- 16000 KB of memory and no modules. -/
def smallMachine : Mem := loaderMem 0x40 640 15360 (oneRegion 0xF00000) []

/-- A module from 2 MB to 32 MB on a machine with 64 MB. -/
def largeModule : Mem :=
  loaderMem 0x48 640 64512 (oneRegion 0x3F00000) [⟨0x200000, 0x2000000⟩]

theorem smallMachine_met : Pmm.Met 0x10C000 0x9000 smallMachine (oneRegion 0xF00000) :=
  Pmm.met_of_below (by decide) (by decide) (by decide) (by decide)

theorem largeModule_met : Pmm.Met 0x10C000 0x9000 largeModule (oneRegion 0x3F00000) :=
  Pmm.met_of_below (by decide) (by decide) (by decide) (by decide)

theorem mem_bootFree_smallMachine {k : ℕ} :
    k ∈ bootFree 0x10C000 (MultibootInfo.load smallMachine 0x9000) smallMachine
      (oneRegion 0xF00000) ↔ 269 ≤ k ∧ k < 4000 := by
  have blocks : (Pmm.maxBlocksOf (MultibootInfo.load smallMachine 0x9000)).toNat = 4000 := by
    decide
  have watermark : (Pmm.watermark 0x10C000 (MultibootInfo.load smallMachine 0x9000)).toNat =
      0x10C1F4 := by decide
  have len : (0xF00000 : Word).toNat = 0xF00000 := rfl
  rw [mem_bootFree_oneRegion (by decide) (by decide), blocks, watermark, len]
  omega

theorem mem_bootFree_largeModule {k : ℕ} :
    k ∈ bootFree 0x10C000 (MultibootInfo.load largeModule 0x9000) largeModule
      (oneRegion 0x3F00000) ↔ 8193 ≤ k ∧ k < 16288 := by
  have blocks : (Pmm.maxBlocksOf (MultibootInfo.load largeModule 0x9000)).toNat = 16288 := by
    decide
  have watermark : (Pmm.watermark 0x10C000 (MultibootInfo.load largeModule 0x9000)).toNat =
      0x20007F4 := by decide
  have len : (0x3F00000 : Word).toNat = 0x3F00000 := rfl
  rw [mem_bootFree_oneRegion (by decide) (by decide), blocks, watermark, len]
  omega

theorem smallMachine_fits : Fits 0x10C000 (MultibootInfo.load smallMachine 0x9000) smallMachine
    (oneRegion 0xF00000) where
  covered := by
    refine Pmm.covered_of_ordered (by decide) ?_ (by decide) (by decide)
    rintro m ⟨modules, -⟩
    exact absurd modules (by decide)
  bitmap := by decide
  tables := fun b member => by
    have inside := mem_bootFree_smallMachine.mp member.1
    omega

theorem largeModule_covered : Pmm.Covered 0x10C000 (MultibootInfo.load largeModule 0x9000)
    largeModule (oneRegion 0x3F00000) := by
  refine Pmm.covered_of_ordered (by decide) ?_ (by decide) (by decide)
  rintro m ⟨-, i, bound, rfl⟩
  have one : (MultibootInfo.load largeModule 0x9000).modsCount = 1 := by decide
  have first : i = 0 := by bv_omega
  rw [first]
  decide

end System

end OrbitOs.Kernel
