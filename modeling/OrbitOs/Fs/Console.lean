import OrbitOs.Fs.InitrdRead
import OrbitOs.Kernel.Syscall

/-!
# Callers of the file system

`kernel_main` and the shell read files into arrays on their stack and print
them.  The bytes stored in these arrays are logged in order; replaying the log
of a read gives the memory it leaves.
-/

set_option autoImplicit false

namespace OrbitOs.Fs

open OrbitOs.Machine OrbitOs.Kernel OrbitOs.Base OrbitOs.Drivers

/-! ## The stores of a read -/

abbrev ByteStore := Word × Byte

def replayBytes (m : Mem) (stores : List ByteStore) : Mem :=
  stores.foldl (fun m store => stByte m store.1 store.2) m

def memcpyStores : ℕ → Word → Word → Mem → List ByteStore
  | 0, _, _, _ => []
  | num + 1, d, s, m => (d, m s) :: memcpyStores num (d + 1) (s + 1) (stByte m d (m s))

def initrdReadStores (m : Mem) (n : FsNode) (offset size buffer : Word) : List ByteStore :=
  if offset ≥ n.length then []
  else
    let size := if offset + size > n.length then n.length - offset else size
    memcpyStores size.toNat buffer (n.impl + offset) m

def fsReadStores (st : Initrd) (m : Mem) (n : NodeRef) (offset size buffer : Word) :
    List ByteStore :=
  if (st.node n).read then initrdReadStores m (st.node n) offset size buffer else []

theorem replayBytes_memcpyStores (num : ℕ) (d s : Word) (m : Mem) :
    replayBytes m (memcpyStores num d s m) = memcpyLoop num d s m := by
  induction num generalizing d s m with
  | zero => rfl
  | succ num ih => exact ih (d + 1) (s + 1) (stByte m d (m s))

theorem memcpyStores_addresses (num : ℕ) (d s : Word) (m : Mem) :
    (memcpyStores num d s m).map Prod.fst =
      (List.range num).map fun k => d + BitVec.ofNat 32 k := by
  induction num generalizing d s m with
  | zero => rfl
  | succ num ih =>
      rw [memcpyStores, List.map_cons, ih, List.range_succ_eq_map, List.map_cons, List.map_map]
      congr 1
      · simp
      · apply List.map_congr_left
        intro k _
        rw [Function.comp_apply, Nat.succ_eq_add_one, Nat.add_comm k 1, BitVec.ofNat_add,
          BitVec.add_assoc]
        rfl

section Read

variable (st : Initrd) (m : Mem) (n : NodeRef) (offset size buffer : Word)

theorem replayBytes_fsReadStores :
    replayBytes m (fsReadStores st m n offset size buffer) =
      (Initrd.fsRead st m n offset size buffer).val.1 := by
  unfold fsReadStores Initrd.fsRead initrdReadStores Initrd.initrdRead
  split_ifs
  · rfl
  · exact replayBytes_memcpyStores _ _ _ _
  · exact replayBytes_memcpyStores _ _ _ _
  · rfl

/-- A read stores as many bytes as it returns, from the start of the buffer on. -/
theorem fsReadStores_addresses :
    (fsReadStores st m n offset size buffer).map Prod.fst =
      (List.range (Initrd.fsRead st m n offset size buffer).val.2.toNat).map
        fun k => buffer + BitVec.ofNat 32 k := by
  unfold fsReadStores Initrd.fsRead initrdReadStores Initrd.initrdRead
  split_ifs
  · rfl
  · exact memcpyStores_addresses _ _ _ _
  · exact memcpyStores_addresses _ _ _ _
  · rfl

end Read

/-! ## The state of a caller -/

/-- The file system, the memory outside the static variables, the terminal, and
the bytes stored in arrays on the stack so far. -/
structure Console where
  fs : Initrd
  /-- `fs_root`; `none` is the null pointer. -/
  fsRoot : Option NodeRef
  mem : Mem
  terminal : Terminal
  stores : List ByteStore

namespace Console

/-- `terminal_writestring` of a literal. -/
def print (c : Console) (text : List Byte) : Console :=
  { c with terminal := c.terminal.write text }

/-- `terminal_writestring` of a static array. -/
def writestring (fuel : ℕ) (c : Console) (text : Chars) : Option Console :=
  (strlen fuel fun k => (pure (text k) : Traced Unit Byte)).val.map fun size =>
    c.print ((List.range size).map text)

/-- `terminal_writestring` of an array on the stack. -/
def writeBuffer (c : Console) (buf : Word) : Option Console :=
  (terminalWritestring (fun _ => c.mem) buf c.terminal).val.map fun t => { c with terminal := t }

/-- `fs_read` into an array on the stack. -/
def read (c : Console) (n : NodeRef) (offset size buf : Word) : Console × Word :=
  let (mem, bytes) := (Initrd.fsRead c.fs c.mem n offset size buf).val
  ({ c with mem := mem, stores := c.stores ++ fsReadStores c.fs c.mem n offset size buf }, bytes)

/-- `buf[..] = '\\0';` -/
def store (c : Console) (a : Word) (b : Byte) : Console :=
  { c with mem := stByte c.mem a b, stores := c.stores ++ [(a, b)] }

/-! ## Strings -/

theorem writestring_holds {fuel : ℕ} (c : Console) {text : Chars} {x : List Byte}
    (holds : Holds text x) (enough : x.length < fuel) :
    c.writestring fuel text = some (c.print x) := by
  have chars : (List.range x.length).map text = x := by
    apply List.ext_getElem (by simp)
    intro i _ bound
    rw [List.getElem_map, List.getElem_range, holds.2 i (Nat.le_of_lt bound),
      List.getD_eq_getElem _ _ bound]
  rw [writestring, @strlen_holds Unit (fun k => pure (text k)) x holds fuel enough,
    Option.map_some, chars]

theorem exists_terminated {m : Mem} {data : Word} {k : ℕ} (small : k < 2 ^ 32)
    (zero : m (data + BitVec.ofNat 32 k) = 0) : ∃ n ≤ k, Terminated m data n := by
  have found : ∃ n, m (data + BitVec.ofNat 32 n) = 0 := ⟨k, zero⟩
  have least := Nat.find_min' found zero
  exact ⟨Nat.find found, least, by omega, fun i before => Nat.find_min found before,
    Nat.find_spec found⟩

/-- A string in constant memory is printed up to its terminator. -/
theorem writeBuffer_terminated (c : Console) {buf : Word} {n : ℕ}
    (terminated : Terminated c.mem buf n) :
    c.writeBuffer buf = some (c.print (Initrd.bytesFrom c.mem buf n)) := by
  obtain ⟨sent, length, reads, value, -⟩ :=
    @terminalWritestring_terminated (fun _ => c.mem) buf c.terminal n terminated
  have bytes : sent = Initrd.bytesFrom c.mem buf n := by
    apply List.ext_getElem (by simp [Initrd.bytesFrom, length])
    intro i bound _
    rw [reads i bound]
    simp [Initrd.bytesFrom]
  rw [writeBuffer, value, bytes]
  rfl

/-! ## What the operations leave alone -/

section Frame

variable (c : Console) (text : List Byte) (n : NodeRef) (offset size buf a : Word) (b : Byte)

@[simp] theorem print_fs : (c.print text).fs = c.fs := rfl
@[simp] theorem print_mem : (c.print text).mem = c.mem := rfl
@[simp] theorem print_stores : (c.print text).stores = c.stores := rfl
@[simp] theorem print_terminal : (c.print text).terminal = c.terminal.write text := rfl
@[simp] theorem read_fs : (c.read n offset size buf).1.fs = c.fs := rfl
@[simp] theorem read_terminal : (c.read n offset size buf).1.terminal = c.terminal := rfl
@[simp] theorem read_mem :
    (c.read n offset size buf).1.mem = (Initrd.fsRead c.fs c.mem n offset size buf).val.1 := rfl
@[simp] theorem read_count :
    (c.read n offset size buf).2 = (Initrd.fsRead c.fs c.mem n offset size buf).val.2 := rfl
@[simp] theorem read_stores : (c.read n offset size buf).1.stores =
    c.stores ++ fsReadStores c.fs c.mem n offset size buf := rfl
@[simp] theorem store_fs : (c.store a b).fs = c.fs := rfl
@[simp] theorem store_terminal : (c.store a b).terminal = c.terminal := rfl
@[simp] theorem store_mem : (c.store a b).mem = stByte c.mem a b := rfl
@[simp] theorem store_stores : (c.store a b).stores = c.stores ++ [(a, b)] := rfl

theorem store_terminator (bytes : Word) :
    (c.store (buf + bytes) 0).mem (buf + BitVec.ofNat 32 bytes.toNat) = 0 := by
  have split : buf + bytes = buf + BitVec.ofNat 32 bytes.toNat := by simp
  rw [store_mem, ← split, stByte, if_pos rfl]

end Frame

/-! ## A read and its terminator -/

def FitsBuffer (buf : Word) (stores : List ByteStore) : Prop :=
  ∀ store ∈ stores, Within buf 256 store.1

theorem FitsBuffer.append {buf : Word} {stores stores' : List ByteStore} :
    FitsBuffer buf (stores ++ stores') ↔ FitsBuffer buf stores ∧ FitsBuffer buf stores' := by
  simp only [FitsBuffer, List.mem_append, or_imp, forall_and]

/-- What a read stores, together with the terminator behind it, fits when it
returns at most 255 bytes. -/
theorem fitsBuffer_read_iff (c : Console) (n : NodeRef) (offset size buf : Word) :
    FitsBuffer buf (fsReadStores c.fs c.mem n offset size buf ++
        [(buf + (c.read n offset size buf).2, 0)]) ↔
      (c.read n offset size buf).2.toNat ≤ 255 := by
  have addresses := fsReadStores_addresses c.fs c.mem n offset size buf
  rw [← read_count] at addresses
  generalize (c.read n offset size buf).2 = bytes at addresses
  have bound := bytes.isLt
  constructor
  · intro fits
    have last : (buf + bytes - buf).toNat < 256 :=
      fits (buf + bytes, 0) (List.mem_append_right _ (List.mem_singleton.mpr rfl))
    rw [BitVec.add_comm, BitVec.add_sub_cancel] at last
    omega
  · intro small store member
    rcases List.mem_append.mp member with read | terminator
    · have address : store.1 ∈ (fsReadStores c.fs c.mem n offset size buf).map Prod.fst :=
        List.mem_map_of_mem read
      rw [addresses] at address
      obtain ⟨k, inRange, here⟩ := List.mem_map.mp address
      have kBound := List.mem_range.mp inRange
      rw [← here]
      exact within_add buf (by omega) (by omega)
    · rw [List.mem_singleton.mp terminator]
      have split : buf + bytes = buf + BitVec.ofNat 32 bytes.toNat := by simp
      dsimp only
      rw [split]
      exact within_add buf (by omega) (by omega)

end Console

end OrbitOs.Fs
