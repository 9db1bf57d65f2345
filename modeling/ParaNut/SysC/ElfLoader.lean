import ParaNut.SysC.Memory
import ParaNut.Lib.Writes

/-!
# Reading an ELF file into the memory (`memory.cpp`)

`ReadFile` reads the header and the tables, then copies the allocated program
sections word by word. The names printed, the labels and the VHDL dump are left
out, but not the reads of their tables, since `ReadFile` gives up when one
fails.
-/

namespace ParaNut.SysC.Elf

instance : Nontrivial TByte := ⟨0, 1, by decide⟩

/-- The bytes of a file. -/
abbrev File := List TByte

/-- `return false`, or something C++ leaves undefined. -/
inductive Stop
  | returnFalse
  | undefined
  deriving DecidableEq

/-- `fread (.., n, 1, f)` at `pos`; no item of no bytes is ever read. -/
def fread (file : File) (pos n : ℕ) : Except Stop (List TByte) :=
  if 0 < n ∧ pos + n ≤ file.length then .ok ((file.drop pos).take n) else .error .returnFalse

/-- `ELF_SHORT_H`, `ELF_LONG_H` of the item at `i` of a buffer. -/
def short (buf : List TByte) (i : ℕ) : BitVec 16 := buf.getD i 0 ++ buf.getD (i + 1) 0

def long (buf : List TByte) (i : ℕ) : TWord :=
  buf.getD i 0 ++ buf.getD (i + 1) 0 ++ buf.getD (i + 2) 0 ++ buf.getD (i + 3) 0

/-- `elf32_hdr` -/
structure Hdr where
  ePhoff : TWord
  eShoff : TWord
  ePhentsize : BitVec 16
  ePhnum : BitVec 16
  eShentsize : BitVec 16
  eShnum : BitVec 16
  eShstrndx : BitVec 16

/-- `elf32_phdr` -/
structure Phdr where
  pOffset : TWord
  pPaddr : TWord
  pMemsz : TWord
  deriving DecidableEq

/-- `elf32_shdr` -/
structure Shdr where
  shType : TWord
  shFlags : TWord
  shAddr : TWord
  shOffset : TWord
  shSize : TWord
  shEntsize : TWord
  deriving DecidableEq

def Hdr.parse (buf : List TByte) : Hdr where
  ePhoff := long buf 28
  eShoff := long buf 32
  ePhentsize := short buf 42
  ePhnum := short buf 44
  eShentsize := short buf 46
  eShnum := short buf 48
  eShstrndx := short buf 50

def Phdr.parse (buf : List TByte) : Phdr where
  pOffset := long buf 4
  pPaddr := long buf 12
  pMemsz := long buf 20

def Shdr.parse (buf : List TByte) : Shdr where
  shType := long buf 4
  shFlags := long buf 8
  shAddr := long buf 12
  shOffset := long buf 16
  shSize := long buf 20
  shEntsize := long buf 36

/-- The first `n` records of `size` bytes; reading past the buffer is undefined. -/
def records {R : Type} (parse : List TByte → R) (size : ℕ) (buf : List TByte) (n : ℕ) :
    Except Stop (List R) :=
  if size * n ≤ buf.length then .ok ((List.range n).map fun i => parse (buf.drop (size * i)))
  else .error .undefined

/-- The table of a section, as far as it is needed to go on: `SHT_STRTAB` is 3, `SHT_SYMTAB` 2. -/
def readTable (file : File) (s : Shdr) : Except Stop Unit := do
  if s.shType = 3 then
    let _ ← fread file s.shOffset.toNat s.shSize.toNat
  else if s.shType = 2 then
    let _ ← fread file s.shOffset.toNat s.shSize.toNat
    -- the number of symbols is a quotient
    if s.shEntsize = 0 then throw .undefined

structure Tables where
  phdrs : List Phdr
  shdrs : List Shdr
  deriving DecidableEq

/-- `ReadFile` up to the loop over the sections. -/
def readTables (file : File) : Except Stop Tables := do
  let hdr := Hdr.parse (← fread file 0 52)
  let shdata ← fread file hdr.eShoff.toNat (hdr.eShentsize.toNat * hdr.eShnum.toNat)
  let phdata ←
    if hdr.ePhoff = 0 then pure []
    else fread file hdr.ePhoff.toNat (hdr.ePhnum.toNat * hdr.ePhentsize.toNat)
  let shdrs ← records Shdr.parse 40 shdata hdr.eShnum.toNat
  shdrs.forM (readTable file)
  if hdr.eShstrndx ≠ 0 then
    match shdrs[hdr.eShstrndx.toNat]? with
    | some s => let _ ← fread file s.shOffset.toNat s.shSize.toNat
    | none => throw .undefined
  let phdrs ← records Phdr.parse 32 phdata hdr.ePhnum.toNat
  return ⟨phdrs, shdrs⟩

/-- `(sh_type & SHT_PROGBITS) && (sh_flags & SHF_ALLOC)` -/
def Shdr.loaded (s : Shdr) : Bool := s.shType &&& 1 != 0 && s.shFlags &&& 2 != 0

/-- `padd`: the physical address of a section, by the last program header that covers it. -/
def padd (phdrs : List Phdr) (s : Shdr) : TWord :=
  phdrs.foldl
    (fun padd p =>
      if p.pOffset ≠ 0 ∧ p.pOffset ≤ s.shOffset ∧
          s.shOffset.toNat < p.pOffset.toNat + p.pMemsz.toNat then
        p.pPaddr + s.shOffset - p.pOffset
      else padd)
    s.shAddr

/-- The words the `while` loop wants: as long as the `int` `sectsize` is positive, less 4 each time. -/
def Shdr.words (s : Shdr) : ℕ := (s.shSize.toInt.toNat + 3) / 4

/-- The `while` loop, which also ends with the file. -/
def copyWords (file : File) : ℕ → CMemory → TWord → ℕ → Except Stop CMemory
  | 0, m, _, _ => .ok m
  | words + 1, m, adr, pos =>
    match fread file pos 4 with
    | .error _ => .ok m
    | .ok inputbuf =>
      match m.writeWord adr (long inputbuf 0) with
      | none => .error .undefined
      | some m => copyWords file words m (adr + 4) (pos + 4)

def readFile (file : File) (m : CMemory) : Except Stop CMemory := do
  let t ← readTables file
  t.shdrs.foldlM
    (fun m s =>
      if s.loaded then copyWords file s.words m (padd t.phdrs s) s.shOffset.toNat else pure m)
    m

-- ---------------------------------------------------------------------------
-- What is written
-- ---------------------------------------------------------------------------

section Writes

variable {file : File} {m m' : CMemory}

def putAll (m : CMemory) (ws : List (TWord × TByte)) : Option CMemory :=
  ws.foldlM (fun m w => m.put w.1 w.2) m

/-- What C++ leaves undefined. -/
def ofPut (r : Option CMemory) : Except Stop CMemory := r.elim (.error .undefined) .ok

/-- Index and byte of each write. -/
def indexed (ws : List (TWord × TByte)) : List (ℕ × TByte) := ws.map fun w => (w.1.toNat, w.2)

theorem putAll_eq (m : CMemory) (ws : List (TWord × TByte)) : putAll m ws =
    if ws.all (fun w => m.InArray w.1) then
      some { m with data := Lib.Writes.apply m.data (indexed ws) }
    else none := by
  induction ws generalizing m with
  | nil => exact (if_pos List.all_nil).symm
  | cons w ws ih =>
    rw [putAll, List.foldlM_cons]
    unfold CMemory.put
    by_cases hw : m.InArray w.1
    · rw [if_pos hw]
      refine (ih (m.set w.1 w.2)).trans ?_
      refine if_congr ?_ rfl rfl
      rw [List.all_cons, decide_eq_true hw, Bool.true_and]
      rfl
    · have hno : ¬ (w :: ws).all (fun w => m.InArray w.1) = true := fun h =>
        hw (of_decide_eq_true (List.all_eq_true.mp h w List.mem_cons_self))
      rw [if_neg hw, if_neg hno]
      rfl

theorem putAll_base {ws : List (TWord × TByte)} (h : putAll m ws = some m') :
    m'.base = m.base := by
  rw [putAll_eq] at h
  split at h
  · cases h
    rfl
  · cases h

theorem putAll_append (m : CMemory) (ws ws' : List (TWord × TByte)) :
    putAll m (ws ++ ws') = (putAll m ws).bind fun m => putAll m ws' := by
  rw [putAll, List.foldlM_append]
  rfl

/-- The words the loop gets from the file. -/
def wordsRead (file : File) (words pos : ℕ) : ℕ := min words ((file.length - pos) / 4)

/-- The bytes of `n` words, at index `i` of the array and the following. -/
def wordWrites (file : File) (n : ℕ) (i : TWord) (pos : ℕ) : List (TWord × TByte) :=
  (List.range (4 * n)).map fun k => (i + BitVec.ofNat 32 k, file.getD (pos + k) 0)

theorem wordWrites_succ (file : File) (n : ℕ) (i : TWord) (pos : ℕ) :
    wordWrites file (n + 1) i pos = wordWrites file 1 i pos ++ wordWrites file n (i + 4) (pos + 4) := by
  rw [wordWrites, show 4 * (n + 1) = 4 + 4 * n by omega, List.range_add, List.map_append,
    List.map_map]
  congr 1
  refine List.map_congr_left fun k _ => ?_
  simp only [Function.comp_apply, BitVec.ofNat_add]
  rw [← BitVec.add_assoc, Nat.add_assoc]
  rfl

/-- A byte of a word, as `WriteWord` takes it. -/
theorem shifted_byte (w : TWord) (n : Fin 4) {k : ℕ} (hk : 24 - 8 * n.val = k) :
    (w >>> k).setWidth 8 = Lib.byte w n := by
  apply BitVec.eq_of_getLsbD_eq
  intro j hj
  rw [Lib.byte, hk, BitVec.getLsbD_setWidth, BitVec.getLsbD_ushiftRight,
    BitVec.getLsbD_extractLsb']

theorem low_byte (w : TWord) : w.setWidth 8 = Lib.byte w 3 := by
  rw [← shifted_byte (k := 0) w 3 rfl, BitVec.ushiftRight_zero]

/-- The bytes of a word arrive in the order they have in the file. -/
theorem writeWord_eq (m : CMemory) (adr : TWord) (pos : ℕ) :
    m.writeWord adr (long ((file.drop pos).take 4) 0) =
      putAll m (wordWrites file 1 (adr - m.base) pos) := by
  have hlong : long ((file.drop pos).take 4) 0 =
      Lib.ofBytes fun n => file.getD (pos + n) 0 := by
    have hbyte : ∀ n < 4, ((file.drop pos).take 4).getD n 0 = file.getD (pos + n) 0 := by
      intro n hn
      rw [List.getD_eq_getElem?_getD, List.getElem?_take_of_lt hn, List.getElem?_drop,
        ← List.getD_eq_getElem?_getD]
    simp only [long, hbyte 0 (by decide), hbyte 1 (by decide), hbyte 2 (by decide),
      hbyte 3 (by decide), Nat.zero_add]
    rfl
  unfold CMemory.writeWord
  simp only [shifted_byte (k := 24) _ 0 rfl, shifted_byte (k := 16) _ 1 rfl,
    shifted_byte (k := 8) _ 2 rfl]
  simp only [low_byte, hlong, Lib.byte_ofBytes]
  simp [putAll, wordWrites, List.range_succ]

theorem copyWords_eq (file : File) (words : ℕ) (m : CMemory) (adr : TWord) (pos : ℕ) :
    copyWords file words m adr pos =
      ofPut (putAll m (wordWrites file (wordsRead file words pos) (adr - m.base) pos)) := by
  induction words generalizing m adr pos with
  | zero =>
    rw [wordsRead, Nat.zero_min]
    rfl
  | succ words ih =>
    rw [copyWords, fread]
    by_cases hpos : pos + 4 ≤ file.length
    · have hwords : wordsRead file (words + 1) pos = wordsRead file words (pos + 4) + 1 := by
        rw [wordsRead, wordsRead]
        omega
      rw [if_pos ⟨by decide, hpos⟩, hwords, wordWrites_succ, putAll_append, ← writeWord_eq]
      simp only
      cases hw : m.writeWord adr (long ((file.drop pos).take 4) 0) with
      | none => rfl
      | some m₁ =>
        have hbase : m₁.base = m.base := putAll_base (writeWord_eq m adr pos ▸ hw)
        have hadr : adr + 4 - m₁.base = adr - m.base + 4 := by
          rw [hbase, BitVec.sub_eq_add_neg, BitVec.sub_eq_add_neg, BitVec.add_assoc,
            BitVec.add_comm 4, ← BitVec.add_assoc]
        simp only [ih, hadr]
        rfl
    · have hwords : wordsRead file (words + 1) pos = 0 := by
        rw [wordsRead]
        omega
      rw [if_neg fun h => hpos h.2, hwords]
      rfl

/-- The sections that are loaded, in the order of the file. -/
def Tables.sections (t : Tables) : List Shdr := t.shdrs.filter Shdr.loaded

/-- How many words of a section are copied. -/
def copied (file : File) (s : Shdr) : ℕ := wordsRead file s.words s.shOffset.toNat

def sectionWrites (file : File) (t : Tables) (base : TWord) (s : Shdr) : List (TWord × TByte) :=
  wordWrites file (copied file s) (padd t.phdrs s - base) s.shOffset.toNat

theorem readFile_eq {t : Tables} (ht : readTables file = .ok t) (m : CMemory) :
    readFile file m = ofPut (putAll m (t.sections.flatMap (sectionWrites file t m.base))) := by
  have hloop : ∀ (l : List Shdr) (m : CMemory),
      l.foldlM (fun m s => if s.loaded then
          copyWords file s.words m (padd t.phdrs s) s.shOffset.toNat else pure m) m =
        ofPut (putAll m ((l.filter Shdr.loaded).flatMap (sectionWrites file t m.base))) := by
    intro l
    induction l with
    | nil => exact fun m => rfl
    | cons s l ih =>
      intro m
      rw [List.foldlM_cons]
      cases hs : s.loaded with
      | false =>
        rw [List.filter_cons_of_neg (by simp [hs])]
        exact ih m
      | true =>
        rw [List.filter_cons_of_pos hs, List.flatMap_cons, putAll_append, if_pos rfl, copyWords_eq]
        cases hput : putAll m (sectionWrites file t m.base s) with
        | none =>
          rw [sectionWrites, copied] at hput
          rw [hput]
          rfl
        | some m₁ =>
          have hbase := putAll_base hput
          rw [sectionWrites, copied] at hput
          rw [hput, ← hbase]
          exact ih m₁
  rw [readFile, ht]
  exact hloop t.shdrs m

end Writes

-- ---------------------------------------------------------------------------
-- What is wanted
-- ---------------------------------------------------------------------------

section Wanted

variable (file : File) (t : Tables)

/-- The address is one of the section's bytes. -/
def Holds (s : Shdr) (adr : ℕ) : Prop :=
  (padd t.phdrs s).toNat ≤ adr ∧ adr < (padd t.phdrs s).toNat + s.shSize.toNat

/-- The address is one of the words copied for the section. -/
def Copies (s : Shdr) (adr : ℕ) : Prop :=
  (padd t.phdrs s).toNat ≤ adr ∧ adr < (padd t.phdrs s).toNat + 4 * copied file s

/-- The byte that the file has for the section at an address. -/
def byteAt (s : Shdr) (adr : ℕ) : TByte :=
  file.getD (s.shOffset.toNat + (adr - (padd t.phdrs s).toNat)) 0

/-- The sections lie in the file and in the memory, apart from each other. -/
structure Placed (base size : TWord) : Prop where
  memory : base.toNat + size.toNat ≤ 2 ^ 32
  inFile : ∀ s ∈ t.sections, s.shOffset.toNat + s.shSize.toNat ≤ file.length
  inMemory : ∀ s ∈ t.sections, base.toNat ≤ (padd t.phdrs s).toNat ∧
    (padd t.phdrs s).toNat + s.shSize.toNat ≤ base.toNat + size.toNat
  apart : t.sections.Pairwise fun s s' => ∀ adr, Holds t s adr → ¬ Holds t s' adr

/-- The loaded sections are in the memory `m'`, and the rest of `m` is unchanged. -/
structure Installed (m m' : CMemory) : Prop where
  loaded : ∀ s ∈ t.sections, ∀ k < s.shSize.toNat,
    m'.readByte (padd t.phdrs s + BitVec.ofNat 32 k) = file[s.shOffset.toNat + k]?
  kept : ∀ adr : TWord, (∀ s ∈ t.sections, ¬ Holds t s adr.toNat) → m'.readByte adr = m.readByte adr

/-- A byte copied behind a section's end does no harm, and no byte is left out. -/
structure Harmless : Prop where
  complete : ∀ s ∈ t.sections, ∀ adr, Holds t s adr → ∃ s' ∈ t.sections, Copies file t s' adr
  behind : ∀ pre s post, t.sections = pre ++ s :: post → ∀ adr, Copies file t s adr →
    (∃ s' ∈ post, Copies file t s' adr) ∨
      ∃ s' ∈ t.sections, Holds t s' adr ∧ byteAt file t s' adr = byteAt file t s adr

end Wanted

section Proof

variable {file : File} {t : Tables} {base size : TWord}

/-- Of the elements with a property, one is the last. -/
theorem exists_last {S : Type*} {P : S → Prop} {l : List S} (h : ∃ x ∈ l, P x) :
    ∃ pre x post, l = pre ++ x :: post ∧ P x ∧ ∀ y ∈ post, ¬ P y := by
  induction l with
  | nil => simp at h
  | cons x l ih =>
    by_cases hl : ∃ y ∈ l, P y
    · obtain ⟨pre, y, post, rfl, hy, hpost⟩ := ih hl
      exact ⟨x :: pre, y, post, rfl, hy, hpost⟩
    · obtain ⟨y, hy, hPy⟩ := h
      rcases List.mem_cons.mp hy with rfl | hy
      · exact ⟨[], y, l, rfl, hPy, fun z hz hPz => hl ⟨z, hz, hPz⟩⟩
      · exact absurd ⟨y, hy, hPy⟩ hl

/-- All words copied are in the memory. -/
def Fits (file : File) (t : Tables) (base size : TWord) : Prop :=
  ∀ s ∈ t.sections, (padd t.phdrs s).toNat + 4 * copied file s ≤ base.toNat + size.toNat

theorem Placed.start (hp : Placed file t base size) {s : Shdr} (hs : s ∈ t.sections) :
    (padd t.phdrs s - base).toNat = (padd t.phdrs s).toNat - base.toNat := by
  have hlow := (hp.inMemory s hs).1
  have := (padd t.phdrs s).isLt
  rw [BitVec.toNat_sub]
  omega

/-- Words that run out of the memory hit the place right behind it. -/
theorem Placed.fits_iff (hp : Placed file t base size) {m : CMemory} (hsize : m.size = size) :
    (∀ w ∈ t.sections.flatMap (sectionWrites file t base), m.InArray w.1) ↔
      Fits file t base size := by
  have hmem := hp.memory
  have hlt := size.isLt
  have hindex : ∀ s ∈ t.sections, ∀ k, (padd t.phdrs s - base + BitVec.ofNat 32 k).toNat =
      ((padd t.phdrs s).toNat - base.toNat + k) % 2 ^ 32 := by
    intro s hs k
    rw [BitVec.toNat_add, BitVec.toNat_ofNat, hp.start hs, Nat.add_mod_mod]
  constructor
  · intro h s hs
    obtain ⟨hlow, hhigh⟩ := hp.inMemory s hs
    by_contra hout
    have hw : (padd t.phdrs s - base + BitVec.ofNat 32 (base.toNat + size.toNat - (padd t.phdrs s).toNat),
        file.getD (s.shOffset.toNat + (base.toNat + size.toNat - (padd t.phdrs s).toNat)) 0) ∈
        t.sections.flatMap (sectionWrites file t base) :=
      List.mem_flatMap.mpr ⟨s, hs, List.mem_map.mpr ⟨_, List.mem_range.mpr (by omega), rfl⟩⟩
    have hin := h _ hw
    rw [CMemory.InArray, hsize, hindex s hs] at hin
    omega
  · intro h w hw
    obtain ⟨s, hs, hw⟩ := List.mem_flatMap.mp hw
    obtain ⟨k, hk, rfl⟩ := List.mem_map.mp hw
    obtain ⟨hlow, hhigh⟩ := hp.inMemory s hs
    have hfit := h s hs
    have hk' := List.mem_range.mp hk
    rw [CMemory.InArray, hsize, hindex s hs]
    omega

/-- The last write of a section at an index. -/
theorem Placed.last_section (hp : Placed file t base size) (hfits : Fits file t base size)
    {s : Shdr} (hs : s ∈ t.sections) (i : ℕ) [Decidable (Copies file t s (base.toNat + i))] :
    Lib.Writes.last (indexed (sectionWrites file t base s)) i =
      if Copies file t s (base.toNat + i) then some (byteAt file t s (base.toNat + i)) else none := by
  have hmem := hp.memory
  have hlow := (hp.inMemory s hs).1
  have hfit := hfits s hs
  have hwrites : indexed (sectionWrites file t base s) = (List.range (4 * copied file s)).map
      fun k => ((padd t.phdrs s).toNat - base.toNat + k, file.getD (s.shOffset.toNat + k) 0) := by
    rw [indexed, sectionWrites, wordWrites, List.map_map]
    refine List.map_congr_left fun k hk => ?_
    have hk' := List.mem_range.mp hk
    simp only [Function.comp_apply, BitVec.toNat_add, BitVec.toNat_ofNat, hp.start hs]
    congr 1
    omega
  rw [hwrites, Lib.Writes.last_range]
  have hplace : i - ((padd t.phdrs s).toNat - base.toNat) =
      base.toNat + i - (padd t.phdrs s).toNat := by omega
  rw [hplace]
  refine if_congr ?_ rfl rfl
  rw [Copies]
  omega

/-- The last write at an index is one of the last section that copies a word there. -/
theorem Placed.last_eq_some (hp : Placed file t base size) (hfits : Fits file t base size) {i : ℕ}
    {d : TByte} :
    Lib.Writes.last (indexed (t.sections.flatMap (sectionWrites file t base))) i = some d ↔
      ∃ pre s post, t.sections = pre ++ s :: post ∧ Copies file t s (base.toNat + i) ∧
        byteAt file t s (base.toNat + i) = d ∧
        ∀ s' ∈ post, ¬ Copies file t s' (base.toNat + i) := by
  classical
  rw [indexed, List.map_flatMap, Lib.Writes.last_flatMap_eq_some]
  refine exists_congr fun pre => exists_congr fun s => exists_congr fun post => ?_
  refine and_congr_right fun hsplit => ?_
  have hmem : ∀ s' ∈ s :: post, s' ∈ t.sections := fun s' hs' => by
    rw [hsplit]
    exact List.mem_append_right _ hs'
  have hpost : (∀ s' ∈ post, Lib.Writes.last (indexed (sectionWrites file t base s')) i = none) ↔
      ∀ s' ∈ post, ¬ Copies file t s' (base.toNat + i) := by
    refine forall₂_congr fun s' hs' => ?_
    rw [hp.last_section hfits (hmem s' (List.mem_cons_of_mem s hs'))]
    split_ifs with h <;> simp [h]
  have hs := hp.last_section hfits (hmem s List.mem_cons_self) i
  refine (and_congr (Iff.of_eq (congrArg (· = some d) hs)) hpost).trans ?_
  split_ifs with h
  · rw [Option.some.injEq, and_iff_right h]
  · exact iff_of_false (fun hc => nomatch hc.1) fun hc => h hc.1

/-- The byte wanted at an index: the one of the section that lies there. -/
def wanted (file : File) (t : Tables) (base : TWord) (i : ℕ) : Option TByte :=
  (t.sections.find? fun s => decide ((padd t.phdrs s).toNat ≤ base.toNat + i) &&
    decide (base.toNat + i < (padd t.phdrs s).toNat + s.shSize.toNat)).map
    fun s => byteAt file t s (base.toNat + i)

/-- Only one section lies at an address. -/
theorem Placed.unique (hp : Placed file t base size) {s s' : Shdr} (hs : s ∈ t.sections)
    (hs' : s' ∈ t.sections) {adr : ℕ} (h : Holds t s adr) (h' : Holds t s' adr) : s = s' := by
  by_contra hne
  have : Std.Symm fun s s' => ∀ adr, Holds t s adr → ¬ Holds t s' adr :=
    ⟨fun _ _ hapart adr ha hb => hapart adr hb ha⟩
  exact hp.apart.forall hs hs' hne adr h h'

theorem Placed.wanted_eq_some (hp : Placed file t base size) {i : ℕ} {d : TByte} :
    wanted file t base i = some d ↔ ∃ s ∈ t.sections, Holds t s (base.toNat + i) ∧
      byteAt file t s (base.toNat + i) = d := by
  rw [wanted, Option.map_eq_some_iff]
  constructor
  · rintro ⟨s, hfind, hd⟩
    have hholds := List.find?_some hfind
    rw [Bool.and_eq_true, decide_eq_true_eq, decide_eq_true_eq] at hholds
    exact ⟨s, List.mem_of_find?_eq_some hfind, hholds, hd⟩
  · rintro ⟨s, hs, hholds, hd⟩
    cases hfind : t.sections.find? fun s => decide ((padd t.phdrs s).toNat ≤ base.toNat + i) &&
        decide (base.toNat + i < (padd t.phdrs s).toNat + s.shSize.toNat) with
    | none =>
      have hno := List.find?_eq_none.mp hfind s hs
      rw [Bool.and_eq_true, decide_eq_true_eq, decide_eq_true_eq] at hno
      exact absurd hholds hno
    | some s' =>
      have hholds' := List.find?_some hfind
      rw [Bool.and_eq_true, decide_eq_true_eq, decide_eq_true_eq] at hholds'
      rw [hp.unique (List.mem_of_find?_eq_some hfind) hs hholds' hholds]
      exact ⟨s, rfl, hd⟩

theorem Placed.wanted_eq_none (hp : Placed file t base size) {i : ℕ} :
    wanted file t base i = none ↔ ∀ s ∈ t.sections, ¬ Holds t s (base.toNat + i) := by
  rw [Option.eq_none_iff_forall_ne_some]
  constructor
  · intro h s hs hholds
    exact h _ (hp.wanted_eq_some.mpr ⟨s, hs, hholds, rfl⟩)
  · intro h d hd
    obtain ⟨s, hs, hholds, -⟩ := hp.wanted_eq_some.mp hd
    exact h s hs hholds

/-- The conditions on the sections say that each byte of the memory is written last as wanted. -/
theorem Placed.harmless_iff (hp : Placed file t base size) : Harmless file t ↔
    Fits file t base size ∧ ∀ i < size.toNat,
      Lib.Writes.last (indexed (t.sections.flatMap (sectionWrites file t base))) i =
        wanted file t base i := by
  constructor
  · intro h
    have hfits : Fits file t base size := by
      intro s hs
      obtain ⟨hlow, hhigh⟩ := hp.inMemory s hs
      by_contra hout
      have hend : ∃ s ∈ t.sections, Copies file t s (base.toNat + size.toNat) :=
        ⟨s, hs, by rw [Copies]; omega⟩
      obtain ⟨pre, s₁, post, hsplit, hcopies, hpost⟩ := exists_last hend
      rcases h.behind pre s₁ post hsplit _ hcopies with ⟨s', hs', hc⟩ | ⟨s', hs', hholds, -⟩
      · exact hpost s' hs' hc
      · have hin := (hp.inMemory s' hs').2
        rw [Holds] at hholds
        omega
    refine ⟨hfits, fun i hi => ?_⟩
    cases hlast : Lib.Writes.last
        (indexed (t.sections.flatMap (sectionWrites file t base))) i with
    | none =>
      refine (hp.wanted_eq_none.mpr fun s hs hholds => ?_).symm
      obtain ⟨pre, s₁, post, hsplit, hcopies, hpost⟩ := exists_last (h.complete s hs _ hholds)
      have hsome := (hp.last_eq_some hfits).mpr ⟨pre, s₁, post, hsplit, hcopies, rfl, hpost⟩
      rw [hlast] at hsome
      cases hsome
    | some d =>
      obtain ⟨pre, s₁, post, hsplit, hcopies, hd, hpost⟩ := (hp.last_eq_some hfits).mp hlast
      rcases h.behind pre s₁ post hsplit _ hcopies with ⟨s', hs', hc⟩ | ⟨s', hs', hholds, hbyte⟩
      · exact absurd hc (hpost s' hs')
      · exact (hp.wanted_eq_some.mpr ⟨s', hs', hholds, hbyte.trans hd⟩).symm
  · rintro ⟨hfits, h⟩
    refine ⟨fun s hs adr hholds => ?_, fun pre s post hsplit adr hcopies => ?_⟩
    · obtain ⟨hlow, hhigh⟩ := hp.inMemory s hs
      obtain ⟨i, rfl⟩ := Nat.exists_eq_add_of_le (hlow.trans hholds.1)
      have hlast := h i (by rw [Holds] at hholds; omega)
      rw [hp.wanted_eq_some.mpr ⟨s, hs, hholds, rfl⟩] at hlast
      obtain ⟨pre, s₁, post, hsplit, hcopies, -⟩ := (hp.last_eq_some hfits).mp hlast
      exact ⟨s₁, by rw [hsplit]; exact List.mem_append_right _ List.mem_cons_self, hcopies⟩
    · have hs : s ∈ t.sections := by
        rw [hsplit]
        exact List.mem_append_right _ List.mem_cons_self
      by_contra hno
      rw [not_or] at hno
      obtain ⟨i, rfl⟩ := Nat.exists_eq_add_of_le ((hp.inMemory s hs).1.trans hcopies.1)
      have hfit := hfits s hs
      have hlast := h i (by rw [Copies] at hcopies; omega)
      rw [(hp.last_eq_some hfits).mpr
        ⟨pre, s, post, hsplit, hcopies, rfl, fun s' hs' hc => hno.1 ⟨s', hs', hc⟩⟩] at hlast
      exact hno.2 (hp.wanted_eq_some.mp hlast.symm)

theorem readByte_mk (base size : TWord) (data : ℕ → TByte) (adr : TWord) :
    (⟨base, size, data⟩ : CMemory).readByte adr =
      if (adr - base).toNat < size.toNat then some (data (adr - base).toNat) else none := rfl

/-- The memory is as wanted at each index. -/
theorem Placed.installed_iff (hp : Placed file t base size) {data data' : ℕ → TByte} :
    Installed file t ⟨base, size, data⟩ ⟨base, size, data'⟩ ↔
      ∀ i < size.toNat, data' i = (wanted file t base i).getD (data i) := by
  have hmem := hp.memory
  have hoffset : ∀ adr : TWord, ∀ i < size.toNat, adr.toNat = base.toNat + i →
      (adr - base).toNat = i := by
    intro adr i hi hadr
    rw [BitVec.toNat_sub]
    omega
  -- the byte of a section at one of its addresses
  have hbyte : ∀ s ∈ t.sections, ∀ k < s.shSize.toNat,
      file[s.shOffset.toNat + k]? = some (byteAt file t s ((padd t.phdrs s).toNat + k)) := by
    intro s hs k hk
    have hfile := hp.inFile s hs
    rw [byteAt, Nat.add_sub_cancel_left, List.getD_eq_getElem?_getD,
      List.getElem?_eq_getElem (by omega)]
    rfl
  have hadr : ∀ s ∈ t.sections, ∀ k < s.shSize.toNat,
      (padd t.phdrs s + BitVec.ofNat 32 k).toNat = (padd t.phdrs s).toNat + k := by
    intro s hs k hk
    have hin := (hp.inMemory s hs).2
    rw [BitVec.toNat_add, BitVec.toNat_ofNat]
    omega
  constructor
  · intro h i hi
    cases hw : wanted file t base i with
    | none =>
      have hnat : (BitVec.ofNat 32 (base.toNat + i)).toNat = base.toNat + i :=
        Nat.mod_eq_of_lt (by omega)
      have hkept := h.kept (BitVec.ofNat 32 (base.toNat + i))
        (hnat.symm ▸ hp.wanted_eq_none.mp hw)
      rw [readByte_mk, readByte_mk, hoffset _ i hi hnat, if_pos hi, if_pos hi] at hkept
      exact Option.some.inj hkept
    | some d =>
      obtain ⟨s, hs, hholds, rfl⟩ := hp.wanted_eq_some.mp hw
      obtain ⟨k, hk⟩ := Nat.exists_eq_add_of_le hholds.1
      have hksize : k < s.shSize.toNat := by
        have := hholds.2
        omega
      have hloaded := h.loaded s hs k hksize
      rw [hbyte s hs k hksize, readByte_mk,
        hoffset _ i hi ((hadr s hs k hksize).trans hk.symm), if_pos hi, ← hk] at hloaded
      exact Option.some.inj hloaded
  · intro h
    refine ⟨fun s hs k hk => ?_, fun adr hno => ?_⟩
    · obtain ⟨hlow, hhigh⟩ := hp.inMemory s hs
      obtain ⟨i, hi⟩ := Nat.exists_eq_add_of_le (hlow.trans (Nat.le_add_right _ k))
      have hisize : i < size.toNat := by omega
      have hw := hp.wanted_eq_some.mpr ⟨s, hs, ⟨by omega, by omega⟩, congrArg (byteAt file t s) hi.symm⟩
      rw [hbyte s hs k hk, readByte_mk, hoffset _ i hisize ((hadr s hs k hk).trans hi),
        if_pos hisize, h i hisize, hw]
      rfl
    · rw [readByte_mk, readByte_mk]
      refine ite_congr rfl (fun hin => ?_) fun _ => rfl
      have hplace : adr.toNat = base.toNat + (adr - base).toNat := by
        have := adr.isLt
        have := base.isLt
        rw [BitVec.toNat_sub] at hin ⊢
        omega
      rw [h _ hin, hp.wanted_eq_none.mpr (hplace ▸ hno)]
      rfl

/-- Sections of whole words are copied as they are. -/
theorem Placed.harmless_of_words (hp : Placed file t base size)
    (hwords : ∀ s ∈ t.sections, s.shSize.toNat % 4 = 0 ∧ s.shSize.toNat < 2 ^ 31) :
    Harmless file t := by
  have hcopied : ∀ s ∈ t.sections, 4 * copied file s = s.shSize.toNat := by
    intro s hs
    obtain ⟨hmod, hlt⟩ := hwords s hs
    have hfile := hp.inFile s hs
    have hint : s.shSize.toInt.toNat = s.shSize.toNat := by
      rw [BitVec.toInt_eq_toNat_of_lt (by omega), Int.toNat_natCast]
    rw [copied, wordsRead, Shdr.words, hint]
    omega
  have hcopies : ∀ s ∈ t.sections, ∀ adr, Copies file t s adr ↔ Holds t s adr := fun s hs adr => by
    rw [Copies, Holds, hcopied s hs]
  refine ⟨fun s hs adr hholds => ⟨s, hs, (hcopies s hs adr).mpr hholds⟩, ?_⟩
  intro pre s post hsplit adr hc
  have hs : s ∈ t.sections := by
    rw [hsplit]
    exact List.mem_append_right _ List.mem_cons_self
  exact .inr ⟨s, hs, (hcopies s hs adr).mp hc, rfl⟩

end Proof

/-- One program section of `size` bytes for address 4, at the end of the file, where there are 8
bytes. -/
def tinyFile (size : TByte) : File :=
  [0x7f, 0x45, 0x4c, 0x46, 1, 2, 1, 0, 0, 0, 0, 0, 0, 0, 0, 0] ++
    -- type, machine, version, entry, `e_phoff`, `e_shoff`, flags
    [0, 2, 0, 0x5c, 0, 0, 0, 1, 0, 0, 0, 4, 0, 0, 0, 0, 0, 0, 0, 52, 0, 0, 0, 0] ++
    -- sizes and numbers of the tables, `e_shstrndx`
    [0, 52, 0, 32, 0, 0, 0, 40, 0, 2, 0, 0] ++
    List.replicate 40 0 ++
    -- name, `SHT_PROGBITS`, `SHF_ALLOC | SHF_EXECINSTR`, address, offset, size
    [0, 0, 0, 0, 0, 0, 0, 1, 0, 0, 0, 6, 0, 0, 0, 4, 0, 0, 0, 132, 0, 0, 0, size] ++
    [0, 0, 0, 0, 0, 0, 0, 0, 0, 0, 0, 4, 0, 0, 0, 0] ++
    [0x11, 0x22, 0x33, 0x44, 0x55, 0x66, 0x77, 0x88]

def tinyTables (size : TByte) : Tables :=
  ⟨[], [⟨0, 0, 0, 0, 0, 0⟩, ⟨1, 6, 4, 132, size.setWidth 32, 0⟩]⟩

theorem readTables_tinyFile : ∀ size ∈ [5, 8], readTables (tinyFile size) = .ok (tinyTables size) := by
  decide +kernel

theorem placed_tinyFile (size : TByte) (h : size.toNat ≤ 8) :
    Placed (tinyFile size) (tinyTables size) 0 16 := by
  have hsections : (tinyTables size).sections = [⟨1, 6, 4, 132, size.setWidth 32, 0⟩] := by
    simp [Tables.sections, tinyTables, Shdr.loaded]
  have hlength : (tinyFile size).length = 140 := rfl
  have hsize : (size.setWidth 32).toNat = size.toNat := by simp; omega
  refine ⟨by decide, ?_, ?_, ?_⟩ <;> rw [hsections]
  · simp [hlength]
    omega
  · simp [padd, tinyTables]
    omega
  · exact List.pairwise_singleton _ _

end ParaNut.SysC.Elf
