import ParaNut.Memu.Types

/-!
# The tag RAM (`mtagram.vhd`)

One RAM for each CPU, all written alike, so the model has one contents and one
read register a port. A tag write takes two cycles: the first reads the old
entry, the second writes it back with one way replaced. Read hits queue up to
write new LRU information.
-/

namespace ParaNut.Memu

/-- `get_next_lfsr_state` (`lfsr.vhd`), for a register of `n + 1` bits. -/
def getNextLfsrState {n : ℕ} (state poly : BitVec (n + 1)) : BitVec (n + 1) :=
  let newState := if state.getLsbD 0 then state ^^^ poly else state
  (newState >>> 1).setWidth n |>.cons (state.getLsbD 0)

namespace TagRam

/-- `tag_entry_type` -/
structure Entry where
  valid : ℕ → Bool
  dirty : ℕ → Bool
  taddr : ℕ → ℕ
  lruUse : BitVec 6

structure Registers where
  counter : BitVec 8
  lruUseWr : ℕ → Bool
  lruUseIadr : ℕ → ℕ
  lruEntry : ℕ → Entry
  taddr : ℕ → ℕ
  iaddr : ℕ → ℕ
  readTag : ℕ → Bool
  writeTag : Bool
  wprt : ℕ
  wtag : CacheTag
  /-- contents of the RAMs, by index -/
  mem : ℕ → Entry
  /-- `tram_rdata` -/
  rdata : ℕ → Entry

/-- `tagram_in_type` -/
structure In where
  rd : ℕ → Bool
  wr : ℕ → Bool
  addr : ℕ → TWord
  tagIn : ℕ → CacheTag

section Comb

variable (c : Config)

/-- `CFG_MEMU_CACHE_REPLACE_LRU = 1 and CFG_MEMU_CACHE_WAYS > 1` -/
def useLru : Bool := c.replaceLru && decide (1 < c.ways)

/-- Places 0 to 2 of the 4-way use word, and the most recently used way, derived from them. -/
def useWay (oldUse : BitVec 6) (n : ℕ) : BitVec 2 :=
  if n = 3 then
    oldUse.extractLsb' 4 2 ^^^ oldUse.extractLsb' 2 2 ^^^ oldUse.extractLsb' 0 2
  else oldUse.extractLsb' (2 * n) 2

/-- `get_new_use`: move `way` to the end of the use word. -/
def getNewUse (oldUse : BitVec 6) (way : ℕ) : BitVec 6 :=
  if c.ways = 1 then 0
  else if c.ways = 2 then if way % 2 = 0 then 1 else 0
  else
    let place (n : ℕ) : BitVec 2 :=
      if (List.range (n + 1)).any fun m => useWay oldUse m == BitVec.ofNat 2 way then
        useWay oldUse (n + 1)
      else useWay oldUse n
    place 2 ++ place 1 ++ place 0

/-- The way that holds `taddr`; the last one counts. -/
def findWay (e : Entry) (taddr : ℕ) : Option ℕ :=
  (List.range c.ways).reverse.find? fun w => e.valid w && e.taddr w == taddr

variable (r : Registers) (i : In)

/-- The way to replace on a miss. -/
def victimWay (e : Entry) : ℕ :=
  if c.ways = 1 then 0
  else if c.replaceLru then e.lruUse.toNat % c.ways
  else r.counter.toNat % c.ways

/-- `tro.tag_out` -/
def tagOut (p : ℕ) : CacheTag :=
  let e := r.rdata p
  let way := (findWay c e (r.taddr p)).getD (victimWay c r e)
  ⟨(findWay c e (r.taddr p)).isSome, e.dirty way, e.taddr way, way⟩

/-- New LRU information after a read hit, if it differs from the old one. -/
def newUse (p : ℕ) : Option (BitVec 6) :=
  match findWay c (r.rdata p) (r.taddr p) with
  | some way =>
    let use := getNewUse c (r.rdata p).lruUse way
    if useLru c && use != (r.rdata p).lruUse then some use else none
  | none => none

/-- `new_use_wr` -/
def newUseWr (p : ℕ) : Bool := (newUse c r p).isSome && r.readTag p

/-- The port that writes a tag; the last one counts. -/
def writePort : Option ℕ := (List.range c.cores).reverse.find? i.wr

/-- `wentry`: the old entry with the written way replaced. -/
def wentry : Entry :=
  let e := r.rdata r.wprt
  { valid := Function.update e.valid r.wtag.way r.wtag.valid
    dirty := Function.update e.dirty r.wtag.way r.wtag.dirty
    taddr := Function.update e.taddr r.wtag.way r.wtag.taddr
    lruUse := if useLru c then getNewUse c e.lruUse r.wtag.way else e.lruUse }

/-- `write_lru_prt` and `write_lru`: the queue entry to write, if any. -/
def writeLruPrt : Option ℕ :=
  if useLru c then (List.range c.cores).reverse.find? r.lruUseWr else none

/-- The queue flags after one cycle. -/
def nextLruUseWr (p : ℕ) : Bool :=
  if useLru c then
    if r.lruUseWr p then
      if r.lruUseIadr p == r.iaddr r.wprt && r.writeTag then newUseWr c r p
      else if writeLruPrt c r == some p && !r.writeTag then newUseWr c r p
      else true
    else newUseWr c r p
  else r.lruUseWr p

/-- `tram_we`, `tram_waddr` and `tram_wdata`. -/
def ramWrite : Option (ℕ × Entry) :=
  if (r.writeTag && (writePort c i).isSome) || (writeLruPrt c r).isSome then
    match writeLruPrt c r, r.writeTag with
    | some p, false => some (r.lruUseIadr p, r.lruEntry p)
    | _, _ => some (r.iaddr r.wprt, wentry c r)
  else none

/-- Contents after the clock edge. -/
def nextMem : ℕ → Entry :=
  match ramWrite c r i with
  | some (a, e) => Function.update r.mem a e
  | none => r.mem

/-- The registers after one cycle; the RAMs are write-first. -/
def comb : Registers where
  counter :=
    if !c.replaceLru && decide (1 < c.ways) then getNextLfsrState r.counter 0x1d else r.counter
  lruUseWr := nextLruUseWr c r
  lruUseIadr p := if newUseWr c r p then r.iaddr p else r.lruUseIadr p
  lruEntry p :=
    match newUse c r p, r.readTag p with
    | some use, true => { r.rdata p with lruUse := use }
    | _, _ => r.lruEntry p
  taddr p := tagOf c (i.addr p)
  iaddr p := indexOf c (i.addr p)
  readTag := i.rd
  writeTag := (writePort c i).isSome && !r.writeTag
  wprt := (writePort c i).getD r.wprt
  wtag := match writePort c i with
    | some p => i.tagIn p
    | none => r.wtag
  mem := nextMem c r i
  rdata p := nextMem c r i (indexOf c (i.addr p))

end Comb

end TagRam

end ParaNut.Memu
