import OrbitOs.Base.NumberText
import OrbitOs.Drivers.PciSetup
import OrbitOs.Drivers.RtcDecoding
import OrbitOs.Kernel.Itoa
import OrbitOs.Memory.PmmAccounting
import OrbitOs.Shell.Cat

/-!
# The commands `memory`, `date` and `netinfo` of shell/shell.c

The numbers come back from the text.  Those of `memory` are the totals of the frame
allocator in kilobytes, those of `date` a moment of the clock, and those of `netinfo`
the address in the registers of the network card.
-/

set_option autoImplicit false

namespace OrbitOs.Shell

open OrbitOs.Machine OrbitOs.Base OrbitOs.Base.Numerals OrbitOs.Kernel OrbitOs.Memory
  OrbitOs.Drivers OrbitOs.Drivers.Rtc OrbitOs.Fs

/-! ## The source -/

/-- `terminal_writestring(itoa(value, buf, 10))` -/
def writeNumber (fuel : ℕ) (value : Word) (buf : Chars) (c : Console) :
    Option (Chars × Console) := do
  let buf ← itoa fuel value buf 10
  let c ← c.writestring fuel buf
  return (buf, c)

def memoryCommand (fuel : ℕ) (pmm : Pmm) (buf : Chars) (c : Console) : Option Console := do
  let c := c.print (charsOf "Memory Statistics:\n")
  let c := c.print (charsOf "  Total Memory: ")
  let (buf, c) ← writeNumber fuel (Pmm.pmmGetTotalMemory pmm / 1024) buf c
  let c := c.print (charsOf " KB\n")
  let c := c.print (charsOf "  Used Memory:  ")
  let (buf, c) ← writeNumber fuel (Pmm.pmmGetUsedMemory pmm / 1024) buf c
  let c := c.print (charsOf " KB\n")
  let c := c.print (charsOf "  Free Memory:  ")
  let (_, c) ← writeNumber fuel (Pmm.pmmGetFreeMemory pmm / 1024) buf c
  return c.print (charsOf " KB\n")

/-- `if (value < 10) terminal_writestring("0");` and the number. -/
def writePadded (fuel : ℕ) (value : Byte) (buf : Chars) (c : Console) : Option (Chars × Console) :=
  let c := if value < 10 then c.print (charsOf "0") else c
  writeNumber fuel (value.setWidth 32) buf c

def dateCommand (fuel : ℕ) (time : RtcTime) (buf : Chars) (c : Console) : Option Console := do
  let (buf, c) ← writeNumber fuel (time.year.setWidth 32) buf c
  let c := c.print (charsOf "-")
  let (buf, c) ← writePadded fuel time.month buf c
  let c := c.print (charsOf "-")
  let (buf, c) ← writePadded fuel time.day buf c
  let c := c.print (charsOf " ")
  let (buf, c) ← writePadded fuel time.hour buf c
  let c := c.print (charsOf ":")
  let (buf, c) ← writePadded fuel time.minute buf c
  let c := c.print (charsOf ":")
  let (_, c) ← writePadded fuel time.second buf c
  return c.print (charsOf "\n")

/-! ## The texts -/

def memoryText (total used free : ℕ) : List Byte :=
  charsOf "Memory Statistics:\n" ++ charsOf "  Total Memory: " ++ numeral total ++
    charsOf " KB\n" ++ charsOf "  Used Memory:  " ++ numeral used ++
    charsOf " KB\n" ++ charsOf "  Free Memory:  " ++ numeral free ++ charsOf " KB\n"

def dateText (time : RtcTime) : List Byte :=
  numeral time.year.toNat ++ charsOf "-" ++ twoDigits time.month.toNat ++
    charsOf "-" ++ twoDigits time.day.toNat ++ charsOf " " ++ twoDigits time.hour.toNat ++
    charsOf ":" ++ twoDigits time.minute.toNat ++ charsOf ":" ++ twoDigits time.second.toNat ++
    charsOf "\n"

theorem print_print (c : Console) (a b : List Byte) : (c.print a).print b = c.print (a ++ b) := by
  rw [Console.print, Console.print, Console.print, write_append]

theorem itoa_numeral {value : Word} (small : value.toNat < 2 ^ 31) {fuel : ℕ} (enough : 34 ≤ fuel)
    (buf : Chars) : ∃ d, itoa fuel value buf 10 = some d ∧ Holds d (numeral value.toNat) := by
  by_cases zero : value = 0
  · rw [zero]
    have written : Function.update buf 0 48 = place buf 0 [48] := by
      have append := place_append buf 0 [] 48
      rwa [place_nil] at append
    refine ⟨_, rfl, ?_⟩
    rw [written]
    exact holds_place buf (by decide)
  · have positive : value.toNat ≠ 0 := fun none => zero (BitVec.eq_of_toNat_eq none)
    have signed : value.toInt = value.toNat := BitVec.toInt_eq_toNat_of_lt (by omega)
    have guard : false = (value.slt 0 && (10 : Word) == 10) := by
      rw [eq_comm, ← Bool.not_eq_true, guard_iff]
      omega
    have abs : value.toInt = 1 * (value.toNat : Int) := by omega
    have text := @itoa_spec value 10 (by decide) (by decide) zero false guard 1 (Or.inl rfl)
      value.toNat abs value.isLt fuel enough buf
    have digits : numeral value.toNat = digitsText 10 value.toNat := if_neg positive
    have base : (10 : Word).toNat = 10 := rfl
    rw [base, reverse_remainderText (by omega) (by omega)] at text
    refine ⟨_, text, ?_⟩
    rw [digits]
    exact holds_place buf (digitsText_noNul (by omega) (by omega))

theorem length_numeral {n bits : ℕ} (bound : n < 2 ^ bits) (some : 1 ≤ bits) :
    (numeral n).length ≤ bits := by
  unfold numeral
  by_cases zero : n = 0
  · rw [if_pos zero]
    exact some
  · rw [if_neg zero, digitsText, List.length_map, List.length_reverse]
    exact (Nat.digits_length_le_iff (by omega) n).mpr
      (Nat.lt_of_lt_of_le bound (Nat.pow_le_pow_left (by omega) bits))

section Write

variable {fuel : ℕ} (enough : 34 ≤ fuel) (buf : Chars) (c : Console)

include enough

theorem writeNumber_prints {value : Word} (small : value.toNat < 2 ^ 31) :
    ∃ d, writeNumber fuel value buf c = some (d, c.print (numeral value.toNat)) := by
  obtain ⟨d, ends, holds⟩ := itoa_numeral small enough buf
  have short := length_numeral small (by omega)
  refine ⟨d, ?_⟩
  rw [writeNumber, ends]
  simp only [Option.bind_eq_bind, Option.bind_some]
  rw [Console.writestring_holds c holds (by omega)]
  rfl

theorem writePadded_prints (value : Byte) :
    ∃ d, writePadded fuel value buf c = some (d, c.print (twoDigits value.toNat)) := by
  have bound := value.isLt
  have wide : (value.setWidth 32).toNat = value.toNat := by
    rw [BitVec.toNat_setWidth]
    omega
  have same : value < 10 ↔ value.toNat < 10 := BitVec.lt_def
  have small : (value.setWidth 32).toNat < 2 ^ 31 := by omega
  unfold writePadded twoDigits
  by_cases single : value.toNat < 10
  · obtain ⟨d, ends⟩ := writeNumber_prints enough buf (c.print (charsOf "0")) small
    rw [if_pos (same.mpr single), if_pos single]
    refine ⟨d, ?_⟩
    dsimp only
    rw [ends, wide, print_print]
    rfl
  · rw [if_neg (mt same.mp single), if_neg single]
    obtain ⟨d, ends⟩ := writeNumber_prints enough buf c small
    rw [wide] at ends
    exact ⟨d, ends⟩

end Write

/-! ## The commands print their texts -/

section Commands

variable {fuel : ℕ} (enough : 34 ≤ fuel) {buf : Chars} {c : Console} {r : Option Console}

include enough

theorem writeNumber_bind {value : Word} (small : value.toNat < 2 ^ 31)
    {next : Chars × Console → Option Console}
    (rest : ∀ d, next (d, c.print (numeral value.toNat)) = r) :
    (writeNumber fuel value buf c >>= next) = r := by
  obtain ⟨d, ends⟩ := writeNumber_prints enough buf c small
  rw [ends]
  exact rest d

theorem writePadded_bind {value : Byte} {next : Chars × Console → Option Console}
    (rest : ∀ d, next (d, c.print (twoDigits value.toNat)) = r) :
    (writePadded fuel value buf c >>= next) = r := by
  obtain ⟨d, ends⟩ := writePadded_prints enough buf c value
  rw [ends]
  exact rest d

theorem memoryCommand_prints (pmm : Pmm) :
    memoryCommand fuel pmm buf c = some (c.print (memoryText
      ((Pmm.pmmGetTotalMemory pmm).toNat / 1024) ((Pmm.pmmGetUsedMemory pmm).toNat / 1024)
      ((Pmm.pmmGetFreeMemory pmm).toNat / 1024))) := by
  have kilobytes : ∀ w : Word, w.toNat / 1024 = (w / 1024).toNat :=
    fun w => (BitVec.toNat_udiv (x := w) (y := 1024)).symm
  have small : ∀ w : Word, (w / 1024).toNat < 2 ^ 31 := by
    intro w
    have bound := w.isLt
    rw [← kilobytes]
    omega
  rw [kilobytes, kilobytes, kilobytes]
  refine writeNumber_bind enough (small _) fun _ => ?_
  refine writeNumber_bind enough (small _) fun _ => ?_
  refine writeNumber_bind enough (small _) fun _ => ?_
  simp only [print_print]
  rfl

theorem dateCommand_prints (time : RtcTime) :
    dateCommand fuel time buf c = some (c.print (dateText time)) := by
  have bound := time.year.isLt
  have year : (time.year.setWidth 32).toNat = time.year.toNat := by
    rw [BitVec.toNat_setWidth]
    omega
  refine writeNumber_bind enough (by omega) fun _ => ?_
  refine writePadded_bind enough fun _ => ?_
  refine writePadded_bind enough fun _ => ?_
  refine writePadded_bind enough fun _ => ?_
  refine writePadded_bind enough fun _ => ?_
  refine writePadded_bind enough fun _ => ?_
  simp only [print_print, year]
  rfl

end Commands

/-! ## The numbers come back -/

theorem numbers_memoryText (total used free : ℕ) :
    numbers (memoryText total used free) = [total, used, free] := by
  have unit : ∀ c ∈ charsOf "KB\n", separates c = true := by decide
  have space : separates 0x20 = true := by decide
  have usedLabel : ∀ c ∈ charsOf "KB\n" ++ charsOf "  Used Memory:  ", separates c = true := by
    decide
  have freeLabel : ∀ c ∈ charsOf "KB\n" ++ charsOf "  Free Memory:  ", separates c = true := by
    decide
  have totalLabel : ∀ c ∈ charsOf "Memory Statistics:\n" ++ charsOf "  Total Memory: ",
      separates c = true := by decide
  have text : memoryText total used free =
      (charsOf "Memory Statistics:\n" ++ charsOf "  Total Memory: ") ++
        (numeral total ++ 0x20 :: ((charsOf "KB\n" ++ charsOf "  Used Memory:  ") ++
          (numeral used ++ 0x20 :: ((charsOf "KB\n" ++ charsOf "  Free Memory:  ") ++
            (numeral free ++ 0x20 :: (charsOf "KB\n" ++ [])))))) := by
    have split : charsOf " KB\n" = 0x20 :: charsOf "KB\n" := rfl
    simp only [memoryText, split, List.append_assoc, List.cons_append, List.append_nil]
  rw [text, numbers_label totalLabel, (numeral_run total).read space, numbers_label usedLabel,
    (numeral_run used).read space, numbers_label freeLabel, (numeral_run free).read space,
    numbers_label unit]
  rfl

/-! ## What the numbers are -/

section Memory

open Pmm

/-- After any allocations and frees, `memory` prints four kilobytes for each block,
for each block in use and for each block that can still be allocated. -/
theorem memory_reports_blocks {start h : History} (inOrder : History.Balanced start)
    (run : History.Run start h) {fuel : ℕ} (enough : 34 ≤ fuel) (buf : Chars) (c : Console) :
    ∃ text free, memoryCommand fuel h.pmm buf c = some (c.print text) ∧
      numbers text = [4 * h.pmm.maxBlocks.toNat, 4 * h.pmm.setBits, 4 * free] ∧
      h.pmm.setBits + free = h.pmm.maxBlocks.toNat ∧
      ∀ n, nthAlloc h.pmm n ≠ 0 ↔ n < free := by
  have balanced := inOrder.run run
  have le := History.setBits_le h.pmm
  have counter := balanced.counter
  have small := balanced.small
  have total : (pmmGetTotalMemory h.pmm).toNat = h.pmm.maxBlocks.toNat * 4096 :=
    toNat_mul_4096 small
  have used : (pmmGetUsedMemory h.pmm).toNat = h.pmm.usedBlocks.toNat * 4096 :=
    toNat_mul_4096 (by omega)
  have free := @History.toNat_freeMemory h.pmm small (by omega)
  refine ⟨_, h.pmm.maxBlocks.toNat - h.pmm.setBits, memoryCommand_prints enough h.pmm, ?_,
    by omega, fun n => ?_⟩
  · rw [numbers_memoryText, total, used, free, counter]
    congr 1
    · omega
    · congr 1
      · omega
      · congr 1
        omega
  · rw [balanced.successes n, counter]

/-- Two blocks are allocated and the first of them is freed. -/
theorem memory_reports_blocks_lowRegion :
    ∃ fuel s, pmmInitialize fuel 0x13C000 0x9000 lowRegionMem = some s ∧
      ∃ pmm text free,
        pmm = pmmFreeBlock (pmmAllocBlock (pmmAllocBlock s).1).1 (pmmAllocBlock s).2 ∧
        memoryCommand 34 pmm (fun _ => 0) (shellAt Initrd.bss fun _ => 0) =
          some ((shellAt Initrd.bss fun _ => 0).print text) ∧
        numbers text = [4 * pmm.maxBlocks.toNat, 4 * pmm.setBits, 4 * free] ∧
        pmm.setBits + free = pmm.maxBlocks.toNat ∧ ∀ n, nthAlloc pmm n ≠ 0 ↔ n < free := by
  obtain ⟨fuel, s, finishes⟩ := lowRegion_finishes
  have counts : SweepCounts 0x13C000 (MultibootInfo.load lowRegionMem 0x9000) lowRegionMem
      lowRegion := by
    unfold SweepCounts
    decide +kernel
  have balanced := balanced_of_sweepCounts finishes lowRegion_met counts
  have booted := pmmInitialize_booted finishes lowRegion_met
  have nonzero : (pmmAllocBlock s).2 ≠ 0 := (balanced.successes 0).mpr (by
    rw [booted.maxBlocks, booted.usedBlocks]
    decide +kernel)
  have first := History.Step.alloc s []
  rw [if_neg nonzero] at first
  have second := History.Step.alloc (pmmAllocBlock s).1 [(pmmAllocBlock s).2]
  have known : (pmmAllocBlock s).2 ∈ (if (pmmAllocBlock (pmmAllocBlock s).1).2 = 0 then
      [(pmmAllocBlock s).2] else [(pmmAllocBlock (pmmAllocBlock s).1).2, (pmmAllocBlock s).2]) := by
    split <;> simp
  have third := History.Step.free (pmmAllocBlock (pmmAllocBlock s).1).1 _ _ known
  have run := ((Relation.ReflTransGen.single first).tail second).tail third
  obtain ⟨text, free, reports⟩ := memory_reports_blocks balanced run (Nat.le_refl 34)
    (fun _ => 0) (shellAt Initrd.bss fun _ => 0)
  exact ⟨fuel, s, finishes, _, text, free, rfl, reports⟩

end Memory

section Date

/-- The hour that `rtc_get_time` stores. -/
def storedHour (chip : Chip) (hour : ℕ) : ℕ :=
  if hours24 chip.registerB then hour else hour12 hour

theorem storedHour_lt (chip : Chip) {hour : ℕ} (small : hour < 24) :
    storedHour chip hour < 24 := by
  unfold storedHour
  split_ifs
  · exact small
  · revert hour
    decide

/-- The two decimal digits of a number below 100. -/
def pair (n : ℕ) : List Byte := [digitChar (n / 10), digitChar (n % 10)]

/-- The line `Y-MM-DD HH:MM:SS`. -/
def stamp (year month day hour minute second : ℕ) : List Byte :=
  numeral year ++ charsOf "-" ++ pair month ++ charsOf "-" ++ pair day ++ charsOf " " ++
    pair hour ++ charsOf ":" ++ pair minute ++ charsOf ":" ++ pair second ++ charsOf "\n"

/-- A record with fields of two digits. -/
theorem dateText_eq_stamp {time : RtcTime} {year month day hour minute second : ℕ}
    (fields : time = ⟨BitVec.ofNat 8 second, BitVec.ofNat 8 minute, BitVec.ofNat 8 hour,
      BitVec.ofNat 8 day, BitVec.ofNat 8 month, BitVec.ofNat 16 year⟩)
    (yearFits : year < 2 ^ 16) (monthFits : month < 100) (dayFits : day < 100)
    (hourFits : hour < 100) (minuteFits : minute < 100) (secondFits : second < 100) :
    dateText time = stamp year month day hour minute second := by
  have field : ∀ n < 100, twoDigits (BitVec.ofNat 8 n).toNat = pair n := by
    intro n small
    have value : (BitVec.ofNat 8 n).toNat = n := by
      rw [BitVec.toNat_ofNat]
      omega
    rw [value, twoDigits_of_lt small, pair]
  have yearValue : (BitVec.ofNat 16 year).toNat = year := by
    rw [BitVec.toNat_ofNat]
    omega
  rw [dateText, fields]
  dsimp only
  rw [yearValue, field month monthFits, field day dayFits, field hour hourFits,
    field minute minuteFits, field second secondFits, stamp]

/-- While the clock ticks at any moment, `date` prints a moment that the clock went
through during the call, if the call takes less than a minute; in 12-hour mode the
hours 0 and 12 are exchanged. -/
theorem date_shows_moment (chip : Chip) {fuel : ℕ} (s : State) {time : RtcTime}
    (returns : (Resumption.run chip.access (rtcGetTime fuel) s).1 = some time)
    (fits : ∀ i, s.now ≤ i → i ≤ (Resumption.run chip.access (rtcGetTime fuel) s).2.now →
      YearFits chip.hasCentury (chip.start.after i).date.year)
    (brief : (Resumption.run chip.access (rtcGetTime fuel) s).2.now < s.now + 60)
    {textFuel : ℕ} (enough : 34 ≤ textFuel) (buf : Chars) (c : Console) :
    ∃ i, s.now ≤ i ∧ i ≤ (Resumption.run chip.access (rtcGetTime fuel) s).2.now ∧
      dateCommand textFuel time buf c = some (c.print (stamp (chip.start.after i).date.year
        (chip.start.after i).date.month (chip.start.after i).date.day
        (storedHour chip (chip.start.after i).hour) (chip.start.after i).minute
        (chip.start.after i).second)) := by
  obtain ⟨raw, century, read, result, later, -⟩ := rtcGetTime_run chip fuel s returns
  obtain ⟨m, n, -, lower, order, upper, -, shown⟩ := readTime_run chip fuel s read
  have together := shown (by omega)
  have year := fits m lower (by omega)
  have stores : time = convert chip.registerB (chip.shown m).1 (chip.shown m).2 := by
    rw [result, ← together]
  rw [convert_shown chip year] at stores
  have inWord : (chip.start.after m).date.year < 2 ^ 16 := by
    unfold YearFits at year
    split_ifs at year <;> omega
  have month := (chip.start.after m).date.month_le
  have day := (chip.start.after m).date.day_small
  have hour := storedHour_lt chip (chip.start.after m).hour_lt
  have minute := (chip.start.after m).minute_lt
  have second := (chip.start.after m).second_lt
  have text := dateText_eq_stamp stores inWord (by omega) (by omega)
    (hour.trans (by simp : 24 < 100)) (by omega) (by omega)
  exact ⟨m, lower, by omega, text ▸ dateCommand_prints enough time⟩

/-- On New Year's Eve. -/
theorem date_shows_moment_newYear :
    ∃ i, 0 ≤ i ∧ i ≤ (Resumption.run newYear.access (rtcGetTime 9) begin).2.now ∧
      dateCommand 34 ⟨0, 0, 0, 1, 1, 2026⟩ (fun _ => 0) (shellAt Initrd.bss fun _ => 0) =
        some ((shellAt Initrd.bss fun _ => 0).print (stamp (newYear.start.after i).date.year
          (newYear.start.after i).date.month (newYear.start.after i).date.day
          (storedHour newYear (newYear.start.after i).hour) (newYear.start.after i).minute
          (newYear.start.after i).second)) := by
  have ends : (Resumption.run newYear.access (rtcGetTime 9) begin).2.now = 1 := by decide
  refine date_shows_moment newYear begin (by decide) (fun i _ upper => ?_) ?_ (Nat.le_refl 34) _ _
  · rw [ends] at upper
    have cases : i = 0 ∨ i = 1 := by omega
    rcases cases with rfl | rfl
    · exact ⟨by decide, by decide⟩
    · exact ⟨by decide, by decide⟩
  · rw [ends]
    decide

end Date

/-! ## The address of the network card -/

section Netinfo

/-- `terminal_putchar` -/
def putchar (b : Byte) (c : Console) : Console := c.print [b]

/-- `hex[i]` -/
def hexChar (i : Byte) : Byte := (charsOf "0123456789ABCDEF").getD i.toNat 0

/-- `for (i = ..; i < 6; i++)` with `left` turns to go. -/
def macLoop (mac : ℕ → Byte) : ℕ → ℕ → Console → Console
  | 0, _, c => c
  | left + 1, i, c =>
    let c := putchar (hexChar (mac i >>> 4)) c
    let c := putchar (hexChar (mac i &&& 0x0F)) c
    let c := if i < 5 then putchar 0x3A c else c
    macLoop mac left (i + 1) c

/-- The array that `e1000_get_mac` fills. -/
def e1000GetMac (e : E1000) : ℕ → Byte := fun i => e.macAddr.getD i 0

/-- `e1000_is_found` -/
def e1000IsFound (e : E1000) : Bool := e.found

def netinfoCommand (e : E1000) (c : Console) : Console :=
  if e1000IsFound e then
    let mac := e1000GetMac e
    let c := c.print (charsOf "Intel E1000 (8254x) Gigabit Ethernet\n")
    let c := c.print (charsOf "MAC Address: ")
    let c := macLoop mac 6 0 c
    c.print (charsOf "\n")
  else c.print (charsOf "No compatible network adapter found.\n")

/-! ### Reading an address -/

/-- The value of a hexadecimal digit. -/
def hexDigitValue (c : Byte) : Option Byte :=
  if 0x30 ≤ c ∧ c ≤ 0x39 then some (c - 0x30)
  else if 0x41 ≤ c ∧ c ≤ 0x46 then some (c - 0x37)
  else none

/-- The byte of two digits. -/
def pairValue : List Byte → Option Byte
  | [high, low] => do return (← hexDigitValue high) <<< 4 ||| (← hexDigitValue low)
  | _ => none

/-- The bytes of a text of pairs with colons between them. -/
def readAddress (text : List Byte) : List (Option Byte) := (text.splitOn 0x3A).map pairValue

def hexPair (b : Byte) : List Byte := [hexChar (b >>> 4), hexChar (b &&& 0x0F)]

def addressText (mac : List Byte) : List Byte := [0x3A].intercalate (mac.map hexPair)

theorem pairValue_hexPair (b : Byte) : pairValue (hexPair b) = some b := by
  revert b
  decide

theorem colon_not_mem_hexPair (b : Byte) : 0x3A ∉ hexPair b := by
  revert b
  decide

theorem readAddress_addressText {mac : List Byte} (some : mac ≠ []) :
    readAddress (addressText mac) = mac.map Option.some := by
  have noColon : ∀ pair ∈ mac.map hexPair, 0x3A ∉ pair := by
    intro pair member
    obtain ⟨b, -, rfl⟩ := List.mem_map.mp member
    exact colon_not_mem_hexPair b
  have nonempty : mac.map hexPair ≠ [] := by simpa using some
  rw [readAddress, addressText, List.splitOn_intercalate _ noColon nonempty, List.map_map]
  exact List.map_congr_left fun b _ => pairValue_hexPair b

theorem macLoop_prints (e : E1000) {mac : List Byte} (address : e.macAddr = mac)
    (six : mac.length = 6) (c : Console) :
    macLoop (e1000GetMac e) 6 0 c = c.print (addressText mac) := by
  obtain ⟨b₀, b₁, b₂, b₃, b₄, b₅, rfl⟩ : ∃ b₀ b₁ b₂ b₃ b₄ b₅, mac = [b₀, b₁, b₂, b₃, b₄, b₅] := by
    match mac, six with
    | [b₀, b₁, b₂, b₃, b₄, b₅], _ => exact ⟨b₀, b₁, b₂, b₃, b₄, b₅, rfl⟩
  simp [macLoop, putchar, print_print, e1000GetMac, address, addressText, hexPair,
    List.intercalate, List.intersperse]

theorem length_receiveAddress (register : Word → Word) (base : Word) :
    (receiveAddress register base).length = 6 := by simp [receiveAddress]

/-- After `e1000_initialize`, `netinfo` prints the address of the first card on the
bus, as its registers hold it, or says that there is none. -/
theorem netinfo_shows_address (regs : ConfigRegisters) (register : Word → Word) (s : Vmm)
    (c : Console) :
    (pciFindDevice regs.space e1000Vendor e1000Device = none →
      netinfoCommand (e1000SetUp regs register s E1000.bss).2.2 c =
        c.print (charsOf "No compatible network adapter found.\n")) ∧
    ∀ card, pciFindDevice regs.space e1000Vendor e1000Device = some card →
      ∃ text, netinfoCommand (e1000SetUp regs register s E1000.bss).2.2 c =
          c.print (charsOf "Intel E1000 (8254x) Gigabit Ethernet\nMAC Address: " ++ text ++
            charsOf "\n") ∧
        readAddress text =
          (receiveAddress register ((regs.at card bar0Register).value &&& ~~~0xF)).map some := by
  obtain ⟨absent, present⟩ := e1000SetUp_spec regs register s E1000.bss
  constructor
  · intro none
    rw [absent none]
    rfl
  · intro card found
    obtain ⟨-, -, -, -, isFound, base, -, mac⟩ := present card found
    rw [base] at mac
    have six := length_receiveAddress register ((regs.at card bar0Register).value &&& ~~~0xF)
    have some : receiveAddress register ((regs.at card bar0Register).value &&& ~~~0xF) ≠ [] := by
      rw [← List.length_pos_iff, six]
      exact Nat.succ_pos 5
    refine ⟨_, ?_, readAddress_addressText some⟩
    unfold netinfoCommand e1000IsFound
    rw [if_pos isFound]
    dsimp only
    rw [macLoop_prints _ mac six, print_print, print_print, print_print]
    rfl

end Netinfo

end OrbitOs.Shell
