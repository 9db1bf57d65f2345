import ParaNut.Memu.Grants

/-!
# The bank arbitration as the sources write it

The requester that a RAM port is given to goes into `sel_port`. `marbiter.vhd`
keeps a port number and a separate flag `sel_port_valid`, `MArbiter` a signed
number that is -1 where there is none. The loops are the same; `Select` is
what they do with an entry of `sel_port`.
-/

namespace ParaNut.Memu.Arbiter

/-- An entry of `sel_port`. -/
structure Select (c : Config) (α : Type) where
  unset : α
  set : ℕ → α
  isSet : α → Bool
  port : α → ℕ
  /-- the comparison with a port number -/
  is : α → ℕ → Bool
  isSet_unset : isSet unset = false
  isSet_set : ∀ n, isSet (set n) = true
  port_set : ∀ n, port (set n) = n
  is_unset : ∀ n, wpOff c ≤ n → is unset n = false
  is_set : ∀ m n, is (set m) n = (m == n)

theorem unset_beq {c : Config} {n : ℕ} (hn : wpOff c ≤ n) : (c.bankRamPorts - 1 == n) = false := by
  have hp := c.bankRamPorts_range
  have hc := c.cores_pos
  simp only [wpOff, Config.rports] at hn
  simp only [beq_eq_false_iff_ne, ne_eq]
  omega

/-- `sel_port` and `sel_port_valid`: the port number is compared whether it is valid or not. -/
def selVhdl (c : Config) : Select c (ℕ × Bool) where
  unset := (c.bankRamPorts - 1, false)
  set n := (n, true)
  isSet := Prod.snd
  port := Prod.fst
  is s n := s.1 == n
  isSet_unset := rfl
  isSet_set _ := rfl
  port_set _ := rfl
  is_unset _ hn := unset_beq hn
  is_set _ _ := rfl

/-- `sel_port` of `MArbiter::BankMethod`: -1 for no port. -/
def selSysC (c : Config) : Select c ℤ where
  unset := -1
  set n := n
  isSet s := decide (0 ≤ s)
  port := Int.toNat
  is s n := s == n
  isSet_unset := rfl
  isSet_set _ := by simp
  port_set _ := rfl
  is_unset n _ := by
    simp only [beq_eq_false_iff_ne, ne_eq]
    omega
  is_set m n := by
    rw [Bool.eq_iff_iff]
    simp

section Loops

variable {c : Config} {α β : Type} [BEq β] (σ : Select c α)

/-- Request lines of a bank, those of them whose grant is kept, and the CPUs by priority. -/
structure BankIn where
  req : ℕ → Bool
  keep : ℕ → Bool
  prio : List ℕ

variable (i : BankIn) (wiadr : ℕ → β) (junk : β)

/-- Prio -1: already granted ports. -/
def selKeptLoop : ℕ → α :=
  (List.range (idxBusif c + 1)).foldl
    (fun sel n => if i.keep n then Function.update sel (ramPort c n) (σ.set n) else sel)
    fun _ => σ.unset

/-- Prio 0: BusIf. -/
def selBusifLoop : ℕ → α :=
  let sel := selKeptLoop σ i
  if i.req (idxBusif c) && !σ.isSet (sel (c.bankRamPorts - 1)) then
    Function.update sel (c.bankRamPorts - 1) (σ.set (idxBusif c))
  else sel

/-- Prio 1 to 3: data read, insn read, data write. -/
def selCpuLoop (sel : ℕ → α) (k : ℕ) : ℕ → α :=
  if !σ.isSet (sel (ramPort c k)) then
    if i.req k then Function.update sel (ramPort c k) (σ.set k)
    else if i.req (k + ipOff c) then Function.update sel (ramPort c k) (σ.set (k + ipOff c))
    else if i.req (k + wpOff c) then Function.update sel (ramPort c k) (σ.set (k + wpOff c))
    else sel
  else sel

def selPortLoop : ℕ → α :=
  if (List.range (idxBusif c + 1)).any i.req then
    i.prio.foldl (selCpuLoop σ i) (selBusifLoop σ i)
  else selBusifLoop σ i

/-- `sel_wiadr`, with a value that should not matter where no port is selected. -/
def selWiadrLoop (p : ℕ) : β :=
  if σ.isSet (selPortLoop σ i p) then wiadr (σ.port (selPortLoop σ i p)) else junk

def preGntLoop (n : ℕ) : Bool :=
  i.keep n || (σ.isSet (selPortLoop σ i (ramPort c n)) && i.req n &&
    wiadr n == selWiadrLoop σ i wiadr junk (ramPort c n))

def selWriterLoop (sel : ℕ → α) (k : ℕ) : ℕ → α :=
  if !σ.is (sel (ramPort c k)) (idxBusif c) && preGntLoop σ i wiadr junk (k + wpOff c) then
    Function.update sel (ramPort c k) (σ.set (k + wpOff c))
  else sel

def selWritersLoop : ℕ → α := i.prio.foldl (selWriterLoop σ i wiadr junk) (selPortLoop σ i)

/-- `gnt_bank`, with the grants of all writers but the selected one removed. -/
def gntBankLoop (n : ℕ) : Bool :=
  preGntLoop σ i wiadr junk n &&
    (decide (n < wpOff c) || σ.is (selWritersLoop σ i wiadr junk (ramPort c n)) n)

end Loops

-- ---------------------------------------------------------------------------
-- The loops select what the arbiter does
-- ---------------------------------------------------------------------------

section Refinement

variable {c : Config} {α β : Type} [BEq β] (σ : Select c α)

/-- The entry for a port or for none. -/
def Select.entry : Option ℕ → α
  | none => σ.unset
  | some n => σ.set n

@[simp] theorem Select.isSet_entry (o : Option ℕ) : σ.isSet (σ.entry o) = o.isSome := by
  cases o with
  | none => exact σ.isSet_unset
  | some n => exact σ.isSet_set n

theorem Select.port_entry (n : ℕ) : σ.port (σ.entry (some n)) = n := σ.port_set n

theorem Select.is_entry {n : ℕ} (hn : wpOff c ≤ n) (o : Option ℕ) :
    σ.is (σ.entry o) n = (o == some n) := by
  cases o with
  | none => exact σ.is_unset n hn
  | some m => exact σ.is_set m n

theorem Select.update_entry (sel : SelPort) (p n : ℕ) :
    Function.update (fun q => σ.entry (sel q)) p (σ.set n) =
      fun q => σ.entry (Function.update sel p (some n) q) := by
  funext q
  rcases eq_or_ne q p with rfl | h
  · simp [Select.entry]
  · simp [h]

variable {σ} {r : Registers} {req : Lines} {ai : In} {b : ℕ}

/-- The inputs of the loops for bank `b`. -/
def bankIn (c : Config) (r : Registers) (req : Lines) (b : ℕ) : BankIn :=
  ⟨req.bank b, keepBank r req b, prioCpus c r⟩

theorem selKeptLoop_eq :
    selKeptLoop σ (bankIn c r req b) = fun p => σ.entry (selKept c r req b p) := by
  have hfold : ∀ l : List ℕ, l.foldl (fun sel n => if keepBank r req b n then
      Function.update sel (ramPort c n) (σ.set n) else sel) (fun _ => σ.unset) =
      fun p => σ.entry (l.reverse.find? fun n => keepBank r req b n && ramPort c n == p) := by
    intro l
    induction l using List.reverseRecOn with
    | nil => rfl
    | append_singleton l n ih =>
      rw [List.foldl_append, ih, List.foldl_cons, List.foldl_nil, List.reverse_append]
      simp only [List.reverse_cons, List.reverse_nil, List.nil_append, List.singleton_append,
        List.find?_cons]
      cases hk : keepBank r req b n with
      | false => simp
      | true =>
        rw [if_pos rfl, σ.update_entry]
        funext p
        rcases eq_or_ne p (ramPort c n) with rfl | hp
        · simp
        · simp [Function.update_of_ne hp, (beq_eq_false_iff_ne.mpr hp.symm)]
  exact hfold _

theorem selBusifLoop_eq :
    selBusifLoop σ (bankIn c r req b) = fun p => σ.entry (selBusif c r req b p) := by
  unfold selBusifLoop selBusif
  rw [selKeptLoop_eq]
  simp only [bankIn, Select.isSet_entry, Option.not_isSome, σ.update_entry]
  split <;> rfl

theorem selCpuLoop_eq (sel : SelPort) (k : ℕ) :
    selCpuLoop σ (bankIn c r req b) (fun p => σ.entry (sel p)) k =
      fun p => σ.entry (selCpu c req b sel k p) := by
  unfold selCpuLoop selCpu
  simp only [bankIn, Select.isSet_entry, Option.not_isSome, σ.update_entry]
  repeat' split
  all_goals rfl

/-- Without any request there is nothing to select. -/
theorem selCpu_idle (h : ∀ n ≤ idxBusif c, req.bank b n = false) (sel : SelPort) {k : ℕ}
    (hk : k < c.cores) : selCpu c req b sel k = sel := by
  have h0 : req.bank b k = false := h k (by simp [idxBusif, Config.rports, Config.wports]; omega)
  have h1 : req.bank b (k + ipOff c) = false :=
    h _ (by simp [idxBusif, ipOff, Config.rports, Config.wports]; omega)
  have h2 : req.bank b (k + wpOff c) = false :=
    h _ (by simp [idxBusif, wpOff, Config.rports, Config.wports]; omega)
  simp [selCpu, h0, h1, h2]

theorem selPortLoop_eq :
    selPortLoop σ (bankIn c r req b) = fun p => σ.entry (selPort c r req b p) := by
  have hfold : ∀ (l : List ℕ) (sel : SelPort),
      l.foldl (selCpuLoop σ (bankIn c r req b)) (fun p => σ.entry (sel p)) =
        fun p => σ.entry (l.foldl (selCpu c req b) sel p) := by
    intro l
    induction l with
    | nil => exact fun _ => rfl
    | cons k l ih =>
      intro sel
      rw [List.foldl_cons, selCpuLoop_eq, ih, List.foldl_cons]
  unfold selPortLoop
  rw [selBusifLoop_eq]
  split
  · exact hfold _ _
  · next hnone =>
    have hidle : ∀ n ≤ idxBusif c, req.bank b n = false := by
      rw [Bool.not_eq_true, any_range_eq_false] at hnone
      exact fun n hn => hnone n (Nat.lt_succ_of_le hn)
    have hskip : ∀ (l : List ℕ) (sel : SelPort), (∀ k ∈ l, k < c.cores) →
        l.foldl (selCpu c req b) sel = sel := by
      intro l
      induction l with
      | nil => exact fun _ _ => rfl
      | cons k l ih =>
        intro sel hl
        rw [List.foldl_cons, selCpu_idle hidle sel (hl k List.mem_cons_self)]
        exact ih sel fun k hk => hl k (List.mem_cons_of_mem _ hk)
    rw [selPort, hskip _ _ fun k hk => mem_prioCpus_lt hk]

variable {wiadr' : ℕ → β} {junk : β}

/-- Addresses that two requesters share in one encoding they share in the other. -/
def SameAddresses (c : Config) (ai : In) (wiadr' : ℕ → β) : Prop :=
  ∀ m n, m ≤ idxBusif c → n ≤ idxBusif c → (wiadr' m == wiadr' n) = (wiadr c ai m == wiadr c ai n)

theorem preGntLoop_eq (hsame : SameAddresses c ai wiadr') {n : ℕ} (hn : n ≤ idxBusif c) :
    preGntLoop σ (bankIn c r req b) wiadr' junk n = preGntBank c r req ai b n := by
  unfold preGntLoop preGntBank selWiadrLoop selWiadr
  rw [selPortLoop_eq]
  cases hsel : selPort c r req b (ramPort c n) with
  | none => simp [bankIn, hsel]
  | some m =>
    simp only [bankIn, hsel, Select.isSet_entry, Option.isSome_some, if_true, Select.port_entry,
      hsame n m hn (selPort_le hsel)]

/-- The grants of a bank come out the same from both ways to keep `sel_port`. -/
theorem gntBankLoop_eq (hsame : SameAddresses c ai wiadr') {n : ℕ} (hn : n ≤ idxBusif c) :
    gntBankLoop σ (bankIn c r req b) wiadr' junk n = gntBank c r req ai b n := by
  have hidx : wpOff c ≤ idxBusif c := Nat.le_add_right _ _
  have hfold : ∀ (l : List ℕ) (sel : SelPort), (∀ k ∈ l, k < c.cores) →
      l.foldl (selWriterLoop σ (bankIn c r req b) wiadr' junk) (fun p => σ.entry (sel p)) =
        fun p => σ.entry (l.foldl (selWriter c r req ai b) sel p) := by
    intro l
    induction l with
    | nil => exact fun _ _ => rfl
    | cons k l ih =>
      intro sel hl
      have hk : k + wpOff c ≤ idxBusif c := by
        have := hl k List.mem_cons_self
        simp only [idxBusif, wpOff, Config.wports]
        omega
      have hstep : selWriterLoop σ (bankIn c r req b) wiadr' junk (fun p => σ.entry (sel p)) k =
          fun p => σ.entry (selWriter c r req ai b sel k p) := by
        unfold selWriterLoop selWriter
        rw [preGntLoop_eq hsame hk, σ.is_entry hidx, σ.update_entry]
        split
        · next h => rw [if_pos (by simpa [bne] using h)]
        · next h => rw [if_neg (by simpa [bne] using h)]
      rw [List.foldl_cons, hstep, ih _ fun k hk => hl k (List.mem_cons_of_mem _ hk),
        List.foldl_cons]
  unfold gntBankLoop gntBank selWritersLoop selWriters
  rw [preGntLoop_eq hsame hn, selPortLoop_eq]
  rw [show (bankIn c r req b).prio = prioCpus c r from rfl, hfold _ _ fun k hk => mem_prioCpus_lt hk]
  rcases Nat.lt_or_ge n (wpOff c) with hlt | hge
  · simp [hlt]
  · rw [σ.is_entry hge]

/-- `marbiter.vhd`: a port number with a valid flag. -/
theorem gntBankLoop_selVhdl (junk : ℕ × ℕ) {n : ℕ} (hn : n ≤ idxBusif c) :
    gntBankLoop (selVhdl c) (bankIn c r req b) (wiadr c ai) junk n = gntBank c r req ai b n :=
  gntBankLoop_eq (fun _ _ _ _ => rfl) hn

end Refinement

end ParaNut.Memu.Arbiter
