import ParaNut.Memu.Grants
import ParaNut.Memu.Memu

/-!
# The grants of one cycle have settled

Bank requests depend on registers and inputs alone, and the other requests on
bank grants besides. So the second round of arbitration gives the grants that
the requests it leads to are answered with.
-/

namespace ParaNut.Memu

namespace Arbiter

variable {c : Config} {r : Registers} {req req' : Lines} {ai : In} {b : ℕ}

theorem selPort_congr (h : req.bank = req'.bank) :
    selPort c r req b = selPort c r req' b := by
  have hcpu : selCpu c req b = selCpu c req' b := by
    funext sel i
    simp only [selCpu, h]
  have hkept : selKept c r req b = selKept c r req' b := by
    funext p
    simp only [selKept, keepBank, h]
  have hbusif : selBusif c r req b = selBusif c r req' b := by simp only [selBusif, hkept, h]
  rw [selPort, selPort, hcpu, hbusif]

/-- Bank grants depend on bank requests only. -/
theorem gntBank_congr (h : req.bank = req'.bank) :
    gntBank c r req ai = gntBank c r req' ai := by
  funext b n
  have hsel : selWiadr c r req ai b = selWiadr c r req' ai b := by
    funext p
    rw [selWiadr, selWiadr, selPort_congr h]
  have hpre : preGntBank c r req ai b = preGntBank c r req' ai b := by
    funext n
    simp only [preGntBank, keepBank, h, selPort_congr h, hsel]
  have hwriter : selWriter c r req ai b = selWriter c r req' ai b := by
    funext sel i
    rw [selWriter, selWriter, hpre]
  rw [gntBank, gntBank, selWriters, selWriters, hpre, hwriter, selPort_congr h]

end Arbiter

section Units

variable {c : Config}

/-- What a write port asks for, banks apart, depends on bank grants only. -/
theorem WritePort.comb_requests {r : WritePort.Registers} (i i' : WritePort.In)
    (hw : i.wpi = i'.wpi) (hbusy : i.busifBusy = i'.busifBusy) (hb : i.gntBank = i'.gntBank) :
    let o := (WritePort.comb c r i).2
    let o' := (WritePort.comb c r i').2
    o.reqLinelock = o'.reqLinelock ∧ o.reqTagr = o'.reqTagr ∧ o.reqTagw = o'.reqTagw ∧
      o.reqBusif = o'.reqBusif := by
  have hg : bankGnt c i = bankGnt c i' := by simp [bankGnt, hw, hb]
  cases hs : r.state <;> simp only [comb, hs, defaults, combInit, hw, hbusy, hg]
  all_goals
    repeat' split
    all_goals simp_all

/-- The banks it asks for, and the way they are for, depend on no grant. -/
theorem WritePort.comb_bankReq {r : WritePort.Registers} (i i' : WritePort.In)
    (hw : i.wpi = i'.wpi) (ht : i.tagIn = i'.tagIn) :
    let o := (WritePort.comb c r i).2
    let o' := (WritePort.comb c r i').2
    o.bankReqRd = o'.bankReqRd ∧ o.tagOut.way = o'.tagOut.way := by
  cases hs : r.state <;> simp only [comb, hs, defaults, combInit, hw, ht]
  all_goals
    repeat' split
    all_goals simp_all

theorem ReadPort.comb_requests {r : ReadPort.Registers} (i i' : ReadPort.In)
    (hr : i.rpi = i'.rpi) (ht : i.tagIn = i'.tagIn) (hv : i.busifDataValid = i'.busifDataValid)
    (ha : i.busifAdr = i'.busifAdr) (hb : i.gntBank = i'.gntBank) :
    let o := (ReadPort.comb c r i).2
    let o' := (ReadPort.comb c r i').2
    o.reqTagr = o'.reqTagr ∧ o.reqBusif = o'.reqBusif := by
  have hit : busifHit c i = busifHit c i' := by simp [busifHit, hr, hv, ha]
  cases hs : r.state <;>
    simp only [comb, hs, defaults, newRequest, readHit, hr, ht, hb, hit]
  all_goals
    repeat' split
    all_goals simp_all

theorem ReadPort.comb_bankReq {r : ReadPort.Registers} (i i' : ReadPort.In)
    (hr : i.rpi = i'.rpi) (ht : i.tagIn = i'.tagIn) (hv : i.busifDataValid = i'.busifDataValid)
    (ha : i.busifAdr = i'.busifAdr) :
    let o := (ReadPort.comb c r i).2
    let o' := (ReadPort.comb c r i').2
    o.bankReqRd = o'.bankReqRd ∧ o.wayOut = o'.wayOut := by
  have hit : busifHit c i = busifHit c i' := by simp [busifHit, hr, hv, ha]
  cases hs : r.state <;>
    simp only [comb, hs, defaults, newRequest, readHit, hr, ht, hit]
  all_goals
    repeat' split
    all_goals simp_all

/-- What the BusIf asks for depends on no grant. -/
theorem bifo_requests (s : State) (g g' : Lines) :
    let o := bifo c s g
    let o' := bifo c s g'
    o.busifBusy = o'.busifBusy ∧ o.tagOut = o'.tagOut ∧ o.reqLinelock = o'.reqLinelock ∧
      o.reqTagr = o'.reqTagr ∧ o.reqTagw = o'.reqTagw ∧ o.reqBank = o'.reqBank := by
  cases hs : s.busif.state <;> simp [bifo, BusIf.comb, BusIf.defaults, hs]

end Units

-- ---------------------------------------------------------------------------
-- Two rounds are enough
-- ---------------------------------------------------------------------------

section Settled

variable (c : Config) (s : State) (i : Input) (g g' : Lines)

theorem rpOut_bankReq (p : ℕ) : (rpOut c s i g p).bankReqRd = (rpOut c s i g' p).bankReqRd ∧
    (rpOut c s i g p).wayOut = (rpOut c s i g' p).wayOut :=
  ReadPort.comb_bankReq (rpIn c s i g p) (rpIn c s i g' p) rfl rfl rfl rfl

theorem wpOut_bankReq (p : ℕ) : (wpOut c s i g p).bankReqRd = (wpOut c s i g' p).bankReqRd ∧
    (wpOut c s i g p).tagOut.way = (wpOut c s i g' p).tagOut.way :=
  WritePort.comb_bankReq (wpIn c s i g p) (wpIn c s i g' p) rfl rfl

theorem rpOut_requests (h : g.bank = g'.bank) (p : ℕ) :
    (rpOut c s i g p).reqTagr = (rpOut c s i g' p).reqTagr ∧
      (rpOut c s i g p).reqBusif = (rpOut c s i g' p).reqBusif :=
  ReadPort.comb_requests (rpIn c s i g p) (rpIn c s i g' p) rfl rfl rfl rfl
    (by simp only [rpIn, h])

theorem wpOut_requests (h : g.bank = g'.bank) (p : ℕ) :
    (wpOut c s i g p).reqLinelock = (wpOut c s i g' p).reqLinelock ∧
      (wpOut c s i g p).reqTagr = (wpOut c s i g' p).reqTagr ∧
      (wpOut c s i g p).reqTagw = (wpOut c s i g' p).reqTagw ∧
      (wpOut c s i g p).reqBusif = (wpOut c s i g' p).reqBusif :=
  WritePort.comb_requests (wpIn c s i g p) (wpIn c s i g' p) rfl
    (bifo_requests s g g').1 (by simp only [wpIn, h])

theorem arbIn_eq : arbIn c s i g = arbIn c s i g' := by
  simp only [arbIn, (bifo_requests s g g').2.1, fun p => (rpOut_bankReq c s i g g' p).2,
    fun p => (wpOut_bankReq c s i g g' p).2]

theorem requests_bank_eq : (requests c s i g).bank = (requests c s i g').bank := by
  simp only [requests, (bifo_requests s g g').2.2.2.2.2, fun p => (rpOut_bankReq c s i g g' p).1,
    fun p => (wpOut_bankReq c s i g g' p).1]

theorem requests_eq (h : g.bank = g'.bank) : requests c s i g = requests c s i g' := by
  obtain ⟨-, -, hll, htr, htw, -⟩ := bifo_requests (c := c) s g g'
  have hbank := requests_bank_eq c s i g g'
  have hrp := rpOut_requests c s i g g' h
  have hwp := wpOut_requests c s i g g' h
  simp only [requests, Lines.mk.injEq] at hbank ⊢
  refine ⟨?_, ?_, ?_, hbank, ?_⟩ <;> funext n
  · rw [hll, (hwp n).1]
  · rw [htr, (hwp _).2.1, (hrp n).1]
  · rw [htw, (hwp n).2.2.1]
  · rw [(hwp _).2.2.2, (hrp n).2]

theorem arbitrate_bank_eq : (arbitrate c s i g).bank = (arbitrate c s i g').bank := by
  simp only [arbitrate, Arbiter.gnt, arbIn_eq c s i g g']
  exact Arbiter.gntBank_congr (requests_bank_eq c s i g g')

/-- The grants answer the very requests they lead to. -/
theorem grants_settled : arbitrate c s i (grants c s i) = grants c s i := by
  have hb : (grants c s i).bank = (arbitrate c s i Lines.none).bank :=
    arbitrate_bank_eq c s i _ _
  show Arbiter.gnt _ _ _ _ = Arbiter.gnt _ _ _ _
  rw [requests_eq c s i _ _ hb, arbIn_eq c s i (grants c s i) (arbitrate c s i Lines.none)]

end Settled

end ParaNut.Memu
