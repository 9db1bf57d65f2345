import ParaNut.Types
import Mathlib.Data.List.Range
import Mathlib.Logic.Function.Basic
import Mathlib.Data.Option.Basic

/-!
# Simulated memory and peripherals (`memory.h`, `peripherals.cpp`)

`data` is an array of `size` bytes; what happens outside of it C++ leaves
undefined, and the result is then `none`. `base` and `size` are `int`s that
meet unsigned addresses, so all sums are modulo 2^32.
-/

namespace ParaNut.SysC

abbrev TByte := BitVec 8

structure CMemory where
  base : TWord
  size : TWord
  /-- the bytes at indices below `size` -/
  data : ℕ → TByte

namespace CMemory

variable (m : CMemory) (adr : TWord)

/-- The index is in the data array. -/
def InArray (i : TWord) : Prop := i.toNat < m.size.toNat

instance (i : TWord) : Decidable (m.InArray i) := inferInstanceAs (Decidable (_ < _))

/-- `data[i]` -/
def get (i : TWord) : Option TByte := if m.InArray i then some (m.data i.toNat) else none

def set (i : TWord) (v : TByte) : CMemory := { m with data := Function.update m.data i.toNat v }

/-- `data[i] = v` -/
def put (i : TWord) (v : TByte) : Option CMemory := if m.InArray i then some (m.set i v) else none

def isAdressed : Bool := decide (m.base ≤ adr) && decide (adr ≤ m.base + m.size)

def readByte : Option TByte := m.get (adr - m.base)

def readWord : Option TWord := do
  let b0 ← m.get (adr - m.base)
  let b1 ← m.get (adr - m.base + 1)
  let b2 ← m.get (adr - m.base + 2)
  let b3 ← m.get (adr - m.base + 3)
  return (b0.setWidth 32 <<< 24) + (b1.setWidth 32 <<< 16) + (b2.setWidth 32 <<< 8) + b3.setWidth 32

def writeByte (val : TByte) : Option CMemory := m.put (adr - m.base) val

def writeWord (val : TWord) : Option CMemory := do
  let i := adr - m.base
  let m ← m.put i ((val >>> 24).setWidth 8)
  let m ← m.put (i + 1) ((val >>> 16).setWidth 8)
  let m ← m.put (i + 2) ((val >>> 8).setWidth 8)
  m.put (i + 3) (val.setWidth 8)

end CMemory

/-- The UART: its registers are of no interest here. -/
structure CUart (U : Type) where
  baseAdr : TWord
  regs : U
  readByte : U → TWord → TByte × U
  writeByte : U → TWord → TByte → U

def CUart.isAdressed {U : Type} (uart : CUart U) (adr : TWord) : Bool :=
  (adr &&& ~~~0xf) == uart.baseAdr

/-- `MPeripherals` -/
structure MPeripherals (U : Type) where
  memory : CMemory
  uart : Option (CUart U)

namespace MPeripherals

variable {U : Type} (p : MPeripherals U) (adr val : TWord) (sel : TByteSel)

/-- `uart && uart->IsAdressed (adr)` -/
def uartAdressed : Bool := p.uart.any (·.isAdressed adr)

/-- `(val >> (24-8*n)) & 0xff` -/
def lane (n : ℕ) : TByte := (val >>> (24 - 8 * n)).setWidth 8

def uartWrite (uart : CUart U) : CUart U :=
  (List.range 4).foldl
    (fun uart n =>
      if sel.getLsbD n then
        { uart with regs := uart.writeByte uart.regs (adr + BitVec.ofNat 32 n) (lane val n) }
      else uart)
    uart

def uartRead (uart : CUart U) : CUart U × TWord :=
  (List.range 4).foldl
    (fun (uart, val) n =>
      if sel.getLsbD n then
        let (b, regs) := uart.readByte uart.regs (adr + BitVec.ofNat 32 n)
        ({ uart with regs := regs }, val ||| b.setWidth 32 <<< (24 - 8 * n))
      else (uart, val))
    (uart, 0)

def memoryWrite (m : CMemory) : Option CMemory :=
  if sel = 15 then m.writeWord adr val
  else
    (List.range 4).foldlM
      (fun m n => if sel.getLsbD n then m.writeByte (adr + BitVec.ofNat 32 n) (lane val n) else some m)
      m

def memoryRead (m : CMemory) : Option TWord :=
  if sel = 15 then m.readWord adr
  else
    (List.range 4).foldlM
      (fun val n =>
        if sel.getLsbD n then do
          let b ← m.readByte (adr + BitVec.ofNat 32 n)
          return val ||| b.setWidth 32 <<< (24 - 8 * n)
        else some val)
      0

/-- One transfer of `MainThread`: the peripherals after it and `dat_o`, if it is a read. It is
acknowledged in any case. -/
def transfer (we : Bool) : Option (MPeripherals U × Option TWord) :=
  if we then
    if p.uartAdressed adr then
      some ({ p with uart := p.uart.map (uartWrite adr val sel) }, none)
    else if p.memory.isAdressed adr then
      (memoryWrite adr val sel p.memory).map fun m => ({ p with memory := m }, none)
    else some (p, none)
  else
    if p.uartAdressed adr then
      some ({ p with uart := p.uart.map fun uart => (uartRead adr sel uart).1 },
        p.uart.map fun uart => (uartRead adr sel uart).2)
    else if p.memory.isAdressed adr then
      (memoryRead adr sel p.memory).map fun w => (p, some w)
    else some (p, some 0xffffffff)

-- ---------------------------------------------------------------------------
-- Inside the array
-- ---------------------------------------------------------------------------

/-- A loop succeeds if each of its steps does, whatever the state is that the earlier ones left. -/
theorem isSome_foldlM {S ι : Type*} {f : S → ι → Option S} {I : S → Prop} {P : ι → Prop}
    (hkept : ∀ s n s', I s → f s n = some s' → I s') (hstep : ∀ s n, I s → ((f s n).isSome ↔ P n))
    (l : List ι) {s : S} (hs : I s) : (l.foldlM f s).isSome ↔ ∀ n ∈ l, P n := by
  induction l generalizing s with
  | nil => simp
  | cons n l ih =>
    rw [List.foldlM_cons, List.forall_mem_cons, ← hstep s n hs]
    cases hf : f s n with
    | none => simp
    | some s' =>
      have hrest := ih (hkept s n s' hs hf)
      simpa using hrest

section InArray

variable {m m' : CMemory} {i : TWord} {v : TByte}

theorem isSome_get : (m.get i).isSome ↔ m.InArray i := by
  unfold CMemory.get
  split <;> simpa

theorem isSome_put : (m.put i v).isSome ↔ m.InArray i := by
  unfold CMemory.put
  split <;> simpa

/-- A write leaves base and size as they are. -/
@[simp] theorem set_base : (m.set i v).base = m.base := rfl

@[simp] theorem set_size : (m.set i v).size = m.size := rfl

theorem put_eq (h : m.put i v = some m') : m' = m.set i v := by
  unfold CMemory.put at h
  split at h
  · exact (Option.some.inj h).symm
  · cases h

theorem inArray_congr (h : m'.size = m.size) : m'.InArray i ↔ m.InArray i := by
  rw [CMemory.InArray, CMemory.InArray, h]

@[simp] theorem inArray_set {j : TWord} : (m.set i v).InArray j ↔ m.InArray j := Iff.rfl

/-- The bytes a transfer touches are in the array. -/
def SelectedInArray (m : CMemory) (adr : TWord) (sel : TByteSel) : Prop :=
  ∀ n ∈ List.range 4, sel.getLsbD n = true → m.InArray (adr + BitVec.ofNat 32 n - m.base)

theorem selected_all (m : CMemory) (adr : TWord) : SelectedInArray m adr 15 ↔
    m.InArray (adr - m.base) ∧ m.InArray (adr - m.base + 1) ∧ m.InArray (adr - m.base + 2) ∧
      m.InArray (adr - m.base + 3) := by
  have hplace : ∀ n : TWord, adr + n - m.base = adr - m.base + n := fun n => by
    rw [BitVec.sub_eq_add_neg, BitVec.sub_eq_add_neg, BitVec.add_assoc, BitVec.add_comm n,
      ← BitVec.add_assoc]
  simp [SelectedInArray, List.range_succ, hplace]

theorem isSome_readWord : (m.readWord adr).isSome ↔ m.InArray (adr - m.base) ∧
    m.InArray (adr - m.base + 1) ∧ m.InArray (adr - m.base + 2) ∧ m.InArray (adr - m.base + 3) := by
  simp only [← isSome_get, CMemory.readWord]
  cases m.get (adr - m.base) <;> cases m.get (adr - m.base + 1) <;>
    cases m.get (adr - m.base + 2) <;> cases m.get (adr - m.base + 3) <;> simp

theorem isSome_bind_put {S : Type*} (f : CMemory → Option S) :
    ((m.put i v).bind f).isSome ↔ m.InArray i ∧ (f (m.set i v)).isSome := by
  unfold CMemory.put
  split
  case isTrue h => exact (and_iff_right h).symm
  case isFalse h => exact iff_of_false nofun fun hi => h hi.1

theorem isSome_writeWord : (m.writeWord adr val).isSome ↔ m.InArray (adr - m.base) ∧
    m.InArray (adr - m.base + 1) ∧ m.InArray (adr - m.base + 2) ∧ m.InArray (adr - m.base + 3) := by
  simp only [CMemory.writeWord, Option.bind_eq_bind, isSome_bind_put, isSome_put, inArray_set]

theorem isSome_memoryRead : (memoryRead adr sel m).isSome ↔ SelectedInArray m adr sel := by
  unfold memoryRead
  split
  case isTrue hall => rw [hall, selected_all, isSome_readWord]
  case isFalse =>
    refine isSome_foldlM (I := fun _ => True) (fun _ _ _ _ _ => trivial) (fun w n _ => ?_) _ trivial
    cases sel.getLsbD n with
    | false => simp
    | true =>
      rw [← isSome_get]
      cases hb : m.get (adr + BitVec.ofNat 32 n - m.base) <;> simp [CMemory.readByte, hb]

theorem isSome_memoryWrite : (memoryWrite adr val sel m).isSome ↔ SelectedInArray m adr sel := by
  unfold memoryWrite
  split
  case isTrue hall => rw [hall, selected_all, isSome_writeWord]
  case isFalse =>
    refine isSome_foldlM (I := fun m' => m'.base = m.base ∧ m'.size = m.size)
      (fun m₁ n m₂ hshape hstep => ?_) (fun m₁ n hshape => ?_) _ ⟨rfl, rfl⟩
    · cases hsel : sel.getLsbD n with
      | false =>
        rw [hsel] at hstep
        cases hstep
        exact hshape
      | true =>
        rw [hsel] at hstep
        rw [put_eq hstep]
        exact hshape
    · cases sel.getLsbD n with
      | false => simp
      | true =>
        rw [← inArray_congr hshape.2, ← hshape.1]
        simpa [CMemory.writeByte] using isSome_put

variable {adr sel}

/-- Bytes of the word at `adr` that are in the array. -/
def room (m : CMemory) (adr : TWord) : ℕ := m.base.toNat + m.size.toNat - adr.toNat

/-- Byte `n` of a word with an accepted address is in the array unless that ends before it. -/
theorem inArray_iff (hword : adr.toNat % 4 = 0) (hadr : m.isAdressed adr = true) {n : ℕ}
    (hn : n < 4) : m.InArray (adr + BitVec.ofNat 32 n - m.base) ↔ n < room m adr := by
  simp only [CMemory.isAdressed, Bool.and_eq_true, decide_eq_true_eq, BitVec.le_def,
    BitVec.toNat_add] at hadr
  obtain ⟨hlow, hhigh⟩ := hadr
  have hbase := m.base.isLt
  have hsize := m.size.isLt
  have hlt := adr.isLt
  rw [CMemory.InArray, BitVec.toNat_sub, BitVec.toNat_add, BitVec.toNat_ofNat, room]
  omega

/-- The bits of a byte select below `n`. -/
theorem sel_lt_iff (sel : TByteSel) (n : ℕ) :
    (∀ k ∈ List.range 4, sel.getLsbD k = true → k < n) ↔ sel.toNat < 2 ^ n := by
  constructor
  · intro h
    refine Nat.lt_pow_two_of_testBit _ fun k hk => ?_
    by_contra hbit
    have hbit' : sel.getLsbD k = true := by simpa [BitVec.testBit_toNat] using hbit
    have hk4 : k < 4 := BitVec.lt_of_getLsbD hbit'
    exact absurd (h k (List.mem_range.mpr hk4) hbit') (Nat.not_lt.mpr hk)
  · intro h k _ hbit
    by_contra hk
    have hle : 2 ^ n ≤ 2 ^ k := Nat.pow_le_pow_right (by decide) (Nat.le_of_not_lt hk)
    have := Nat.testBit_lt_two_pow (h.trans_le hle)
    rw [← BitVec.testBit_toNat, this] at hbit
    cases hbit

theorem selectedInArray_iff (hword : adr.toNat % 4 = 0) (hadr : m.isAdressed adr = true) :
    SelectedInArray m adr sel ↔ sel.toNat < 2 ^ room m adr := by
  rw [← sel_lt_iff]
  refine forall₂_congr fun n hn => imp_congr_right fun _ => ?_
  exact inArray_iff hword hadr (List.mem_range.mp hn)

end InArray

/-- A transfer to an accepted address stays inside the array if the UART takes it, or no byte is
selected from where the memory ends. -/
theorem transfer_inArray (p : MPeripherals U) (adr val : TWord) (sel : TByteSel) (we : Bool)
    (hword : adr.toNat % 4 = 0) (hadr : p.memory.isAdressed adr = true) :
    (p.transfer adr val sel we).isSome ↔
      p.uartAdressed adr = true ∨ sel.toNat < 2 ^ room p.memory adr := by
  rw [← selectedInArray_iff hword hadr]
  unfold transfer
  cases huart : p.uartAdressed adr with
  | true => cases we <;> simp
  | false =>
    rw [hadr]
    cases we with
    | false => simpa using isSome_memoryRead adr sel
    | true => simpa using isSome_memoryWrite adr val sel

/-- The memory of `config.h`, without a UART. -/
def plainPeripherals : MPeripherals Unit := ⟨⟨0, 0x02000000, fun _ => 0⟩, none⟩

theorem transfer_inArray_last :
    (plainPeripherals.transfer 0x01fffffc 0x12345678 15 true).isSome = true :=
  (transfer_inArray plainPeripherals 0x01fffffc 0x12345678 15 true (by decide) (by decide)).mpr
    (.inr (by decide))

/-- The address behind the last word is accepted, but no byte there is in the array. -/
theorem transfer_behind_end : plainPeripherals.memory.isAdressed 0x02000000 = true ∧
    plainPeripherals.transfer 0x02000000 0 15 false = none := by decide

end MPeripherals

end ParaNut.SysC
