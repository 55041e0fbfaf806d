import OrbitOs.Memory.IdentityMap

/-!
# When paging starts with a complete map

`vmm_initialize` enables paging whether its 4096 calls of `vmm_map_page` found
their tables or not.  The directory and the four tables of the first 16 MB take
the five lowest free blocks.  Apart from the bitmap these make a complete map,
fewer do not; with none, or with block 0 as the first one, paging stays off.
-/

set_option autoImplicit false

namespace OrbitOs.Memory

open OrbitOs.Machine OrbitOs.Kernel OrbitOs.Base

namespace Pmm

/-- None of the five lowest free blocks meets the bitmap; block 0 may be one of them. -/
structure LowApart (s : Pmm) : Prop where
  small : s.maxBlocks.toNat < 2 ^ 20
  clear : ∀ k ∈ lowest s.freeBlocks 5, ∀ x, InBlock k x → ¬ s.InBitmapWords x

theorem LowApart.sound_of_few {s : Pmm} (apart : s.LowApart) (few : s.freeBlocks.encard < 5)
    (zeroUsed : 0 ∉ s.freeBlocks) : s.Sound :=
  ⟨apart.small, zeroUsed, fun k free => apart.clear k (mem_lowest_of_few few free)⟩

theorem Sound.lowApart {s : Pmm} (sound : s.Sound) : s.LowApart :=
  ⟨sound.small, fun k low => sound.clear k low.1⟩

/-- The null pointer is also the address of block 0. -/
theorem pmmAllocBlock_zero {s : Pmm} (none : 0 ∈ s.freeBlocks ∨ s.freeBlocks = ∅) :
    (pmmAllocBlock s).2 = 0 := by
  rcases pmmAllocBlock_cases s with ⟨k, least, result⟩ | ⟨_, result⟩
  · rcases none with zero | empty
    · have first : k.toNat = 0 := Nat.le_zero.mp (least.2 zero)
      have value : k = 0 := BitVec.eq_of_toNat_eq first
      rw [result, value]
      rfl
    · exact absurd least.1 (empty ▸ Set.notMem_empty _)
  · rw [result]

/-! ## Another number of blocks -/

def withMaxBlocks (s : Pmm) (n : Word) : Pmm := { s with maxBlocks := n }

@[simp] theorem withMaxBlocks_mem (s : Pmm) (n : Word) : (s.withMaxBlocks n).mem = s.mem := rfl

theorem withMem_withMaxBlocks (s : Pmm) (n : Word) (m : Mem) :
    (s.withMaxBlocks n).withMem m = (s.withMem m).withMaxBlocks n := rfl

theorem freeBlocks_withMaxBlocks {s : Pmm} {n : Word} (fewer : n ≤ s.maxBlocks) :
    (s.withMaxBlocks n).freeBlocks = s.freeBlocks ∩ Set.Iio n.toNat := by
  ext k
  rw [Set.mem_inter_iff, Set.mem_Iio, mem_freeBlocks, mem_freeBlocks]
  rw [BitVec.le_def] at fewer
  constructor
  · rintro ⟨bound, clear⟩
    have within : k < n.toNat := bound
    exact ⟨⟨by omega, clear⟩, within⟩
  · rintro ⟨⟨-, clear⟩, bound⟩
    exact ⟨bound, clear⟩

/-- The scan for a free block stops at the first, so the blocks above do not matter. -/
theorem pmmAllocBlock_withMaxBlocks {s : Pmm} {n : Word} (fewer : n ≤ s.maxBlocks)
    (found : (pmmAllocBlock (s.withMaxBlocks n)).2 ≠ 0) :
    (pmmAllocBlock s).2 = (pmmAllocBlock (s.withMaxBlocks n)).2 ∧
      (pmmAllocBlock (s.withMaxBlocks n)).1 = (pmmAllocBlock s).1.withMaxBlocks n := by
  rcases pmmAllocBlock_cases (s.withMaxBlocks n) with ⟨k, least, result⟩ | ⟨-, result⟩
  · rw [freeBlocks_withMaxBlocks fewer] at least
    have leastAll : IsLeast s.freeBlocks k.toNat := by
      refine ⟨least.1.1, fun j free => ?_⟩
      by_cases below : j < n.toNat
      · exact least.2 ⟨free, below⟩
      · exact (le_of_lt least.1.2).trans (not_lt.mp below)
    rcases pmmAllocBlock_cases s with ⟨j, first, all⟩ | ⟨empty, -⟩
    · have same : j = k := BitVec.eq_of_toNat_eq (first.unique leastAll)
      rw [result, all, same]
      exact ⟨rfl, rfl⟩
    · exact absurd leastAll.1 (empty ▸ Set.notMem_empty _)
  · rw [result] at found
    exact absurd rfl found

@[simp] theorem pmmAllocBlock_maxBlocks (s : Pmm) :
    (pmmAllocBlock s).1.maxBlocks = s.maxBlocks := by
  rcases pmmAllocBlock_cases s with ⟨k, -, result⟩ | ⟨-, result⟩ <;> rw [result]
  rfl

end Pmm

namespace Vmm

open Pmm

/-- Enough for a complete map, or nothing to start with. -/
def Provides (pmm : Pmm) : Prop :=
  0 ∈ pmm.freeBlocks ∨ pmm.freeBlocks = ∅ ∨ (pmm.LowApart ∧ 5 ≤ pmm.freeBlocks.encard)

variable {s : Vmm} {d : ℕ} {t : Tables} {pmm : Pmm}

/-- The first 16 MB map to themselves, writable and accessible from Ring 3, and
nothing above is present. -/
structure CompleteMap (s : Vmm) : Prop where
  low : ∀ x : Word, x.toNat < 0x1000000 →
    s.walk x = some (frameOf x) ∧ s.effective x = some ⟨true, true⟩
  high : ∀ x : Word, 0x1000000 ≤ x.toNat → s.walk x = none

/-! ## Five blocks are enough -/

theorem flags_of_mem_identityCalls {c : MapCall} (member : c ∈ identityCalls) :
    c.flags = pdeWritable ||| pdeUser := by
  obtain ⟨i, _, rfl⟩ := List.mem_map.mp member
  rfl

theorem firstFlags_identityCalls {virt flags : Word}
    (asked : firstFlags identityCalls virt = some flags) : flags = pdeWritable ||| pdeUser := by
  obtain ⟨c, found, rfl⟩ := Option.map_eq_some_iff.mp asked
  exact flags_of_mem_identityCalls (List.mem_of_find?_eq_some found)

theorem lastFlags_identityCalls {virt : Word} (low : virt.toNat < 0x1000000) :
    lastFlags identityCalls virt = some (pdeWritable ||| pdeUser) := by
  have page : virt.toNat / 4096 < 4096 := by omega
  have turn : identityCall (virt.toNat / 4096) ∈ identityCalls.reverse :=
    List.mem_reverse.mpr (List.mem_map_of_mem (List.mem_range.mpr page))
  have same : (identityCall (virt.toNat / 4096)).virt >>> 12 = virt >>> 12 :=
    ((identityCall_samePage_iff page virt).mpr rfl).symm
  unfold lastFlags
  cases found : identityCalls.reverse.find? fun c : MapCall => c.virt >>> 12 = virt >>> 12 with
  | none =>
      have notSame := List.find?_eq_none.mp found _ turn
      simp [same] at notSame
  | some c =>
      have member := List.mem_reverse.mp (List.mem_of_find?_eq_some found)
      rw [Option.map_some, flags_of_mem_identityCalls member]

theorem completeMap_of_completes (sound : pmm.Sound) (completes : IdentityMapCompletes pmm)
    (initialized : vmmInitialize pmm = some s) : CompleteMap s := by
  have walk := (vmmInitialize_initialized sound completes initialized).walk
  refine ⟨fun x low => ⟨by rw [walk, if_pos low], ?_⟩, fun x high => ?_⟩
  swap
  · rw [walk, if_neg (by omega)]
  obtain ⟨s₀, created, succeed⟩ := completes
  have allowed : ∀ c ∈ identityCalls, Allowed c.flags := by
    intro c member
    rw [flags_of_mem_identityCalls member]
    decide
  obtain ⟨first, isFirst, granted⟩ :=
    effective_run sound created identityCalls allowed succeed (lastFlags_identityCalls low)
  rw [vmmInitialize, created, Option.map_some, Option.some_inj] at initialized
  rw [← initialized, granted, firstFlags_identityCalls isFirst]
  decide

/-! ## Five blocks are needed -/

/-- Every call takes its blocks from the free ones, whether it succeeds or not. -/
theorem Represents.tablesLowest_run (rep : Represents s d t) {free : Set ℕ} {n : ℕ}
    (tablesLowest : TablesLowest free n s) (calls : List MapCall)
    (flagBits : ∀ c ∈ calls, FlagBits c.flags) :
    ∃ t', Represents (calls.foldl Vmm.apply s) d t' ∧
      TablesLowest free (n + calls.length) (calls.foldl Vmm.apply s) := by
  induction calls generalizing s t n with
  | nil => exact ⟨t, rep, tablesLowest⟩
  | cons c cs ih =>
      obtain ⟨t', rep', maps⟩ := rep.maps c (flagBits c (List.mem_cons_self ..))
      have grown := tablesLowest.apply maps (k := 1) (s.takesBlock_encard c)
      obtain ⟨t'', rep'', last⟩ := ih rep' grown fun c' member =>
        flagBits c' (List.mem_cons_of_mem _ member)
      refine ⟨t'', rep'', ?_⟩
      have length : n + (c :: cs).length = n + 1 + cs.length := by
        rw [List.length_cons]
        omega
      rwa [length]

theorem Represents.table_of_walk (rep : Represents s d t) {virt : Word}
    (present : s.walk virt ≠ none) : ∃ k, t.dir (virt.toNat / 2 ^ 22) = some k := by
  rw [rep.walk_eq, TwoLevel.lookup] at present
  cases names : t.dir (virt.toNat / 2 ^ 22) with
  | none =>
      rw [names] at present
      exact absurd rfl present
  | some k => exact ⟨k, rfl⟩

/-- The directory and the tables of the first 16 MB are five different blocks. -/
theorem Represents.five_blocks (rep : Represents s d t) (complete : CompleteMap s) :
    ∃ blocks : Finset ℕ, blocks.card = 5 ∧ ∀ b ∈ blocks, ∃ x, InBlock b x ∧ s.OfTables x := by
  have named : ∀ i, i < 4 → ∃ k, t.dir i = some k := by
    intro i bound
    have value : (BitVec.ofNat 32 (2 ^ 22 * i)).toNat = 2 ^ 22 * i := by
      rw [BitVec.toNat_ofNat]
      omega
    have mapped := (complete.low (BitVec.ofNat 32 (2 ^ 22 * i)) (by omega)).1
    obtain ⟨k, names⟩ := rep.table_of_walk (mapped ▸ Option.some_ne_none _)
    rw [value, Nat.mul_div_cancel_left i (by simp)] at names
    exact ⟨k, names⟩
  choose! table names using named
  refine ⟨insert d ((Finset.range 4).image table), ?_, fun b member => ?_⟩
  · have distinct : Set.InjOn table (Finset.range 4 : Set ℕ) := by
      intro i iMember j jMember same
      have iBound := Finset.mem_range.mp iMember
      have jBound := Finset.mem_range.mp jMember
      exact rep.separate i j _ (names i iBound) (same ▸ names j jBound)
    have apart : d ∉ (Finset.range 4).image table := by
      intro member
      obtain ⟨i, iMember, same⟩ := Finset.mem_image.mp member
      exact (rep.named i _ (names i (Finset.mem_range.mp iMember))).2.1 same
    rw [Finset.card_insert_of_notMem apart, Finset.card_image_of_injOn distinct,
      Finset.card_range]
  · have first : ∀ b < 2 ^ 20, InBlock b (blockAddr b) := fun b bound => by
      rw [InBlock, toNat_blockAddr bound, Nat.mul_div_cancel_left b (by simp)]
    rcases Finset.mem_insert.mp member with rfl | inTables
    · have inBlock := first b (rep.bound rep.held)
      exact ⟨_, inBlock, (rep.ofTables_iff _).mpr (Or.inl inBlock)⟩
    · obtain ⟨i, iMember, rfl⟩ := Finset.mem_image.mp inTables
      have isNamed := names i (Finset.mem_range.mp iMember)
      have inBlock := first _ (rep.bound (rep.named i _ isNamed).2.2)
      exact ⟨_, inBlock, (rep.ofTables_iff _).mpr (Or.inr ⟨i, _, isNamed, inBlock⟩)⟩

theorem five_of_completeMap (sound : pmm.Sound) (initialized : vmmInitialize pmm = some s)
    (complete : CompleteMap s) : 5 ≤ pmm.freeBlocks.encard := by
  obtain ⟨s₀, created, rfl⟩ := Option.map_eq_some_iff.mp initialized
  obtain ⟨d, rep⟩ := Represents.empty sound created
  obtain ⟨tablesLowest, -, -⟩ := vmmNewDirectory_tablesLowest sound created
  have flagBits : ∀ c ∈ identityCalls, FlagBits c.flags := by
    intro c member
    obtain ⟨i, _, rfl⟩ := List.mem_map.mp member
    exact identityCall_flagBits i
  obtain ⟨t, rep', taken⟩ := rep.tablesLowest_run tablesLowest identityCalls flagBits
  obtain ⟨blocks, card, inTables⟩ := rep'.five_blocks complete
  have fromFree : (blocks : Set ℕ) ⊆ pmm.freeBlocks := by
    intro b member
    obtain ⟨x, inBlock, ofTables⟩ := inTables b member
    rw [InBlock] at inBlock
    exact inBlock ▸ (taken.tables x ofTables).1
  have counted := Set.encard_le_encard fromFree
  rw [Set.encard_coe_eq_coe_finsetCard, card] at counted
  exact counted

/-! ## The five lowest blocks are enough -/

def withMaxBlocks (s : Vmm) (n : Word) : Vmm := { s with pmm := s.pmm.withMaxBlocks n }

/-- A table found with fewer blocks is the one found with all of them. -/
theorem ensureTable_withMaxBlocks {n i flags : Word} (fewer : n ≤ s.pmm.maxBlocks)
    (found : ((s.withMaxBlocks n).ensureTable i flags).2 = true) :
    (s.withMaxBlocks n).ensureTable i flags =
        ((s.ensureTable i flags).1.withMaxBlocks n, (s.ensureTable i flags).2) ∧
      (s.ensureTable i flags).1.pmm.maxBlocks = s.pmm.maxBlocks := by
  unfold ensureTable at found ⊢
  have sameEntry : ld32 (s.withMaxBlocks n).mem ((s.withMaxBlocks n).pageDirectory + 4 * i) =
      ld32 s.mem (s.pageDirectory + 4 * i) := rfl
  rw [sameEntry] at found ⊢
  by_cases absent : ld32 s.mem (s.pageDirectory + 4 * i) &&& pdePresent = 0
  · rw [if_pos absent] at found
    rw [if_pos absent, if_pos absent]
    dsimp only at found ⊢
    by_cases denied : (pmmAllocBlock (s.withMaxBlocks n).pmm).2 = 0
    · rw [if_pos denied] at found
      contradiction
    · obtain ⟨address, rest⟩ := pmmAllocBlock_withMaxBlocks fewer denied
      have granted : (pmmAllocBlock s.pmm).2 ≠ 0 := address ▸ denied
      have same : pmmAllocBlock (s.withMaxBlocks n).pmm =
          ((pmmAllocBlock s.pmm).1.withMaxBlocks n, (pmmAllocBlock s.pmm).2) :=
        Prod.ext rest address.symm
      rw [if_neg denied, if_neg granted, same]
      dsimp only
      rw [withMaxBlocks_mem, withMem_withMaxBlocks]
      generalize memset (pmmAllocBlock s.pmm).1.mem (pmmAllocBlock s.pmm).2 0 4096 = m
      exact ⟨rfl, pmmAllocBlock_maxBlocks s.pmm⟩
  · rw [if_neg absent, if_neg absent]
    exact ⟨rfl, rfl⟩

theorem apply_withMaxBlocks {n : Word} {c : MapCall} (fewer : n ≤ s.pmm.maxBlocks)
    (succeeds : (s.withMaxBlocks n).mapSucceeds c = true) :
    (s.withMaxBlocks n).apply c = (s.apply c).withMaxBlocks n ∧
      (s.apply c).pmm.maxBlocks = s.pmm.maxBlocks := by
  obtain ⟨same, blocks⟩ := ensureTable_withMaxBlocks fewer succeeds
  unfold mapSucceeds at succeeds
  unfold apply vmmMapPage
  dsimp only
  rw [same] at succeeds ⊢
  generalize s.ensureTable (c.virt >>> 22) c.flags = e at succeeds blocks ⊢
  obtain ⟨s', found⟩ := e
  cases found with
  | false => contradiction
  | true => exact ⟨rfl, blocks⟩

theorem run_withMaxBlocks {n : Word} (calls : List MapCall) (fewer : n ≤ s.pmm.maxBlocks)
    (succeed : allSucceed (s.withMaxBlocks n) calls = true) :
    calls.foldl Vmm.apply (s.withMaxBlocks n) = (calls.foldl Vmm.apply s).withMaxBlocks n := by
  induction calls generalizing s with
  | nil => rfl
  | cons c cs ih =>
      obtain ⟨first, others⟩ := Bool.and_eq_true_iff.mp succeed
      obtain ⟨same, blocks⟩ := apply_withMaxBlocks fewer first
      rw [same] at others
      rw [List.foldl_cons, List.foldl_cons, same]
      exact ih (blocks ▸ fewer) others

theorem vmmNewDirectory_withMaxBlocks {n : Word} (fewer : n ≤ pmm.maxBlocks)
    (created : vmmNewDirectory (pmm.withMaxBlocks n) = some s) :
    ∃ s', vmmNewDirectory pmm = some s' ∧ s = s'.withMaxBlocks n ∧
      s'.pmm.maxBlocks = pmm.maxBlocks := by
  unfold vmmNewDirectory at created ⊢
  dsimp only at created ⊢
  by_cases denied : (pmmAllocBlock (pmm.withMaxBlocks n)).2 = 0
  · rw [if_pos denied] at created
    contradiction
  · obtain ⟨address, rest⟩ := pmmAllocBlock_withMaxBlocks fewer denied
    rw [if_neg denied, Option.some_inj] at created
    rw [rest, ← address, withMaxBlocks_mem, withMem_withMaxBlocks] at created
    rw [if_neg (address ▸ denied)]
    generalize memset (pmmAllocBlock pmm).1.mem (pmmAllocBlock pmm).2 0 4096 = m at created ⊢
    exact ⟨_, rfl, created.symm, pmmAllocBlock_maxBlocks pmm⟩

/-- An allocator that has only the five lowest blocks is sound. -/
theorem exists_sound_cut (apart : pmm.LowApart) (zeroUsed : 0 ∉ pmm.freeBlocks)
    (five : 5 ≤ pmm.freeBlocks.encard) : ∃ n ≤ pmm.maxBlocks, (pmm.withMaxBlocks n).Sound ∧
      5 ≤ (pmm.withMaxBlocks n).freeBlocks.encard := by
  obtain ⟨m, below, enough, low⟩ := exists_cut five fun b free => (mem_freeBlocks.mp free).1
  have small := apart.small
  have cut : (BitVec.ofNat 32 m).toNat = m := by
    rw [BitVec.toNat_ofNat]
    omega
  have fewer : BitVec.ofNat 32 m ≤ pmm.maxBlocks := by
    rw [BitVec.le_def]
    omega
  have blocks := freeBlocks_withMaxBlocks fewer
  have bound : (pmm.withMaxBlocks (BitVec.ofNat 32 m)).maxBlocks.toNat = m := cut
  rw [cut] at blocks
  refine ⟨_, fewer, ⟨by omega, fun zero => ?_, fun k free x inBlock inBitmap => ?_⟩,
    blocks ▸ enough⟩
  · rw [blocks] at zero
    exact zeroUsed zero.1
  · rw [blocks] at free
    refine apart.clear k (low free) x inBlock (Nat.lt_of_lt_of_le inBitmap ?_)
    rw [bound]
    unfold bitmapBytes
    omega

/-- Five low blocks apart from the bitmap are enough. -/
theorem completeMap_of_five (apart : pmm.LowApart) (zeroUsed : 0 ∉ pmm.freeBlocks)
    (five : 5 ≤ pmm.freeBlocks.encard) (initialized : vmmInitialize pmm = some s) :
    CompleteMap s := by
  obtain ⟨n, fewer, sound, enough⟩ := exists_sound_cut apart zeroUsed five
  obtain ⟨s₀, created, succeed⟩ := identityMapCompletes_of_five sound enough
  have mapped := completeMap_of_completes sound ⟨s₀, created, succeed⟩
    (by rw [vmmInitialize, created, Option.map_some])
  obtain ⟨s', started, rfl, same⟩ := vmmNewDirectory_withMaxBlocks fewer created
  rw [run_withMaxBlocks identityCalls (same ▸ fewer) succeed] at mapped
  rw [vmmInitialize, started, Option.map_some, Option.some_inj] at initialized
  rw [initialized] at mapped
  exact ⟨mapped.low, mapped.high⟩

/-! ## The condition -/

/-- `vmm_initialize` leaves paging off or starts it with a complete map when it gets
no directory or all five blocks, and with blocks apart from the bitmap only then. -/
theorem vmmInitialize_complete_iff (pmm : Pmm) :
    (Provides pmm → ∀ s, vmmInitialize pmm = some s → CompleteMap s) ∧
      (pmm.LowApart → (∀ s, vmmInitialize pmm = some s → CompleteMap s) → Provides pmm) := by
  have off : 0 ∈ pmm.freeBlocks ∨ pmm.freeBlocks = ∅ → vmmInitialize pmm = none := by
    intro denied
    unfold vmmInitialize vmmNewDirectory
    dsimp only
    rw [if_pos (pmmAllocBlock_zero denied)]
    rfl
  constructor
  · intro provides s initialized
    by_cases denied : 0 ∈ pmm.freeBlocks ∨ pmm.freeBlocks = ∅
    · rw [off denied] at initialized
      contradiction
    · obtain ⟨zeroUsed, nonempty⟩ := not_or.mp denied
      rcases provides with zero | empty | ⟨apart, five⟩
      · exact absurd zero zeroUsed
      · exact absurd empty nonempty
      · exact completeMap_of_five apart zeroUsed five initialized
  · intro apart complete
    by_contra lacking
    obtain ⟨zeroUsed, rest⟩ := not_or.mp lacking
    obtain ⟨nonempty, lacksFive⟩ := not_or.mp rest
    have few : pmm.freeBlocks.encard < 5 := not_le.mp fun five => lacksFive ⟨apart, five⟩
    have sound := apart.sound_of_few few zeroUsed
    obtain ⟨s₀, created⟩ : ∃ s₀, vmmNewDirectory pmm = some s₀ := by
      unfold vmmNewDirectory
      rcases sound.alloc with ⟨k, pmm', allocates, result⟩ | ⟨empty, _⟩
      · rw [result]
        exact ⟨_, if_neg allocates.blockAddr_ne_zero⟩
      · exact absurd empty nonempty
    have initialized : vmmInitialize pmm = some (identityCalls.foldl Vmm.apply s₀) := by
      rw [vmmInitialize, created, Option.map_some]
    exact not_le.mpr few (five_of_completeMap sound initialized (complete _ initialized))

theorem five_le_eightBlocks : 5 ≤ eightBlocks.freeBlocks.encard := by
  have free : ((Finset.Icc 1 5 : Finset ℕ) : Set ℕ) ⊆ eightBlocks.freeBlocks := by
    intro k member
    rw [Finset.mem_coe, Finset.mem_Icc] at member
    obtain ⟨above, below⟩ := member
    rw [mem_freeBlocks]
    interval_cases k <;> decide
  have counted := Set.encard_le_encard free
  rwa [Set.encard_coe_eq_coe_finsetCard, Nat.card_Icc] at counted

theorem vmmInitialize_complete_iff_eightBlocks :
    ∀ s, vmmInitialize eightBlocks = some s → CompleteMap s :=
  (vmmInitialize_complete_iff eightBlocks).1
    (Or.inr (Or.inr ⟨eightBlocks_sound.lowApart, five_le_eightBlocks⟩))

def twoBlocks : Pmm := ⟨fun x => if x = 0x100000 then 1 else 0, 0x100000, 2, 1⟩

theorem twoBlocks_freeBlocks : twoBlocks.freeBlocks ⊆ {1} := by
  intro k free
  obtain ⟨bound, clear⟩ := mem_freeBlocks.mp free
  have cases : k = 0 ∨ k = 1 := by
    have two : k < 2 := bound
    omega
  rcases cases with rfl | rfl
  · exact absurd clear (by decide)
  · rfl

theorem twoBlocks_sound : twoBlocks.Sound := by
  refine ⟨by simp [twoBlocks], fun free => ?_, fun k free x inBlock inBitmap => ?_⟩
  · exact absurd (twoBlocks_freeBlocks free) (by simp)
  · have one : k = 1 := twoBlocks_freeBlocks free
    exact not_within_of_low (by omega) inBlock inBitmap

/-- The one free block becomes the directory, and paging starts without a table. -/
theorem twoBlocks_incomplete :
    ∃ s, vmmInitialize twoBlocks = some s ∧ ¬ CompleteMap s := by
  obtain ⟨s₀, created⟩ : ∃ s₀, vmmNewDirectory twoBlocks = some s₀ := by
    have nonzero : (pmmAllocBlock twoBlocks).2 ≠ 0 := by decide
    unfold vmmNewDirectory
    dsimp only
    rw [if_neg nonzero]
    exact ⟨_, rfl⟩
  have initialized : vmmInitialize twoBlocks = some (identityCalls.foldl Vmm.apply s₀) := by
    rw [vmmInitialize, created, Option.map_some]
  refine ⟨_, initialized, fun complete => ?_⟩
  have five := five_of_completeMap twoBlocks_sound initialized complete
  have one := five.trans (Set.encard_le_encard twoBlocks_freeBlocks)
  rw [Set.encard_singleton] at one
  exact absurd one (by simp)

end Vmm

end OrbitOs.Memory
