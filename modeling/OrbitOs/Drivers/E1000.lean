import OrbitOs.Memory.IdentityMap

/-!
# The network card driver of drivers/e1000.c

The card's registers are memory at the address in BAR 0.  The scan of the PCI
bus goes through I/O ports, so what it finds is an input here, as are the
values of the registers.
-/

set_option autoImplicit false

namespace OrbitOs.Drivers

open OrbitOs.Machine OrbitOs.Memory

/-- The static variables of e1000.c. -/
structure E1000 where
  mmioBase : Word
  macAddr : List Byte
  found : Bool

namespace E1000

/-- The static variables before the first call. -/
def bss : E1000 := ⟨0, [0, 0, 0, 0, 0, 0], false⟩

/-- `bar0 & ~0xF` -/
def physAddr (bar0 : Word) : Word := bar0 &&& ~~~0xF

/-- The call in turn `i` of the loop. -/
def mmioCall (phys : Word) (i : ℕ) : Vmm.MapCall :=
  ⟨phys + BitVec.ofNat 32 (4096 * i), phys + BitVec.ofNat 32 (4096 * i), Vmm.pdeWritable⟩

/-- `for (i = 0; i < 256; i++)` -/
def mmioCalls (phys : Word) : List Vmm.MapCall := (List.range 256).map (mmioCall phys)

/-- `bar0` is that of the card, if the scan finds one. -/
def e1000Initialize (bar0 : Option Word) (register : Word → Word) (s : Vmm) (e : E1000) :
    Vmm × E1000 :=
  match bar0 with
  | none => (s, e)
  | some bar0 =>
    let phys := physAddr bar0
    let s := (mmioCalls phys).foldl Vmm.apply s
    let ral := register (phys + 0x5400)
    let rah := register (phys + 0x5404)
    (s, {
      mmioBase := phys
      macAddr := [ral.setWidth 8, (ral >>> 8).setWidth 8, (ral >>> 16).setWidth 8,
        (ral >>> 24).setWidth 8, rah.setWidth 8, (rah >>> 8).setWidth 8]
      found := true })

/-- The accesses of the calls of `vmm_map_page`. -/
def e1000Accesses (cr3 : Word) (bar0 : Option Word) (s : Vmm) : List Access :=
  match bar0 with
  | none => []
  | some bar0 => Vmm.mapAllAccesses cr3 s (mmioCalls (physAddr bar0))

/-- The two reads of registers. -/
def registerAccesses (cr3 : Word) (bar0 : Option Word) (s : Vmm) : List Access :=
  match bar0 with
  | none => []
  | some bar0 =>
    let phys := physAddr bar0
    let s := (mmioCalls phys).foldl Vmm.apply s
    [⟨s.mem, cr3, phys + 0x5400, 4⟩, ⟨s.mem, cr3, phys + 0x5404, 4⟩]

/-- `x` is a byte of the two registers. -/
def OfRegister (phys x : Word) : Prop := Within (phys + 0x5400) 8 x

/-- The calls that map the page of a register have a table, or a block for it. -/
def RegistersMapped (s : Vmm) (phys : Word) : Prop :=
  ∀ i < 256, ∀ x, OfRegister phys x → x >>> 12 = (mmioCall phys i).virt >>> 12 →
    s.Supplied ((List.range i).map (mmioCall phys)) (mmioCall phys i)

theorem mmioCalls_flagBits (phys : Word) : ∀ c ∈ mmioCalls phys, Vmm.FlagBits c.flags := by
  intro c member
  obtain ⟨i, -, rfl⟩ := List.mem_map.mp member
  have writable : Vmm.FlagBits Vmm.pdeWritable := by decide
  exact writable

theorem mmioCalls_keepsWindow (phys : Word) : ∀ c ∈ mmioCalls phys, Vmm.KeepsWindow c := by
  intro c member _
  obtain ⟨i, -, rfl⟩ := List.mem_map.mp member
  rfl

/-- The registers are on one of the mapped pages. -/
theorem register_page {phys x : Word} (inRegister : OfRegister phys x) :
    ∃ i < 256, x >>> 12 = (mmioCall phys i).virt >>> 12 := by
  obtain ⟨j, bound, rfl⟩ := (within_iff_exists _ (by simp) x).mp inRegister
  have physBound := phys.isLt
  have toPages : ∀ i, i < 256 → (phys + 0x5400 + BitVec.ofNat 32 j).toNat / 4096 =
      (phys + BitVec.ofNat 32 (4096 * i)).toNat / 4096 →
      (phys + 0x5400 + BitVec.ofNat 32 j) >>> 12 = (mmioCall phys i).virt >>> 12 := by
    intro i _ same
    rw [← BitVec.toNat_inj, BitVec.toNat_ushiftRight, BitVec.toNat_ushiftRight,
      Nat.shiftRight_eq_div_pow, Nat.shiftRight_eq_div_pow]
    exact same
  have sum : (phys + 0x5400 + BitVec.ofNat 32 j).toNat = (phys.toNat + 0x5400 + j) % 2 ^ 32 := by
    bv_omega
  have start : ∀ i < 256, (phys + BitVec.ofNat 32 (4096 * i)).toNat =
      (phys.toNat + 4096 * i) % 2 ^ 32 := by
    intro i iBound
    rw [BitVec.toNat_add, BitVec.toNat_ofNat]
    omega
  by_cases low : phys.toNat % 4096 + 0x400 + j < 4096
  · refine ⟨5, by decide, toPages 5 (by simp) ?_⟩
    rw [sum, start 5 (by simp)]
    omega
  · refine ⟨6, by decide, toPages 6 (by simp) ?_⟩
    rw [sum, start 6 (by simp)]
    omega

theorem mem_registerAccesses {cr3 bar0 : Word} {s : Vmm} {a : Access}
    (member : a ∈ registerAccesses cr3 (some bar0) s) :
    a.mem = ((mmioCalls (physAddr bar0)).foldl Vmm.apply s).mem ∧ a.cr3 = cr3 ∧
      ∀ x, Within a.base a.size x → OfRegister (physAddr bar0) x := by
  unfold registerAccesses at member
  dsimp only at member
  rw [List.mem_cons, List.mem_singleton] at member
  rcases member with rfl | rfl
  · exact ⟨rfl, rfl, fun x (here : Within _ 4 x) => here.mono (by simp)⟩
  · refine ⟨rfl, rfl, fun x here => ?_⟩
    have second : Within (physAddr bar0 + 0x5400 + BitVec.ofNat 32 4) 4 x := by
      rw [BitVec.add_assoc]
      exact here
    exact second.offset (by simp)

theorem registers_present {s : Vmm} {d : ℕ} {t : Vmm.Tables} (rep : s.Represents d t)
    {phys : Word} (mapped : RegistersMapped s phys) {x : Word} (inRegister : OfRegister phys x) :
    ((mmioCalls phys).foldl Vmm.apply s).walk x ≠ none := by
  obtain ⟨i, bound, samePage⟩ := register_page inRegister
  have split : mmioCalls phys = (List.range i).map (mmioCall phys) ++ mmioCall phys i ::
      (List.range' (i + 1) (255 - i)).map (mmioCall phys) := by
    have length : i + (255 - i + 1) = 256 := by omega
    have glue := @List.range'_append_1 0 i (255 - i + 1)
    rw [Nat.zero_add, length, List.range'_succ, ← List.range_eq_range',
      ← List.range_eq_range'] at glue
    rw [mmioCalls, ← glue, List.map_append, List.map_cons]
  have flagBits := mmioCalls_flagBits phys
  rw [split] at flagBits ⊢
  exact rep.present_run _ _ _ flagBits (mapped i bound x inRegister samePage) samePage

end E1000

end OrbitOs.Drivers
