import ParaNut.Memu.Direct
import ParaNut.Memu.Tags

/-!
# The lines that tags name

Where addresses are accessed in one way only, a tag that is valid or dirty
names a line that is accessed through the cache. So a victim that is written
back is such a line.
-/

namespace ParaNut.Memu

/-- Every tag in the unit that is valid or dirty names a cached line. -/
structure CachedTags (c : Config) (cached : ℕ → Prop) (s : State) (i : Input) : Prop
    extends Serves c cached s i, TagsWithin c (Names c cached) s i

section Cycle

variable {c : Config} {cached : ℕ → Prop} {s : State} {i i' : Input}

theorem Serves.fillsWithin (hd : Serves c cached s i) : FillsWithin c (Names c cached) s :=
  fun hw hop => ⟨s.busif.adr, hd.fill (.inr hw) hop, rfl, rfl⟩

protected theorem CachedTags.step (hd : CachedTags c cached s i) (hh : Holds c s i i')
    (ha : Apart c (fun a => ¬ cached (lineOf c a)) i') : CachedTags c cached (step c s i) i' :=
  { hd.toServes.step hh ha, hd.toTagsWithin.step hh hd.fillsWithin with }

theorem IsReset.cachedTags (h : IsReset c s) (ha : Apart c (fun a => ¬ cached (lineOf c a)) i) :
    CachedTags c cached s i :=
  { h.serves ha, h.tagsWithin with }

/-- The bus is used for direct accesses and for cached lines. -/
theorem CachedTags.strobes (hd : CachedTags c cached s i)
    (h : (bifo c s (grants c s i)).stbO = true) :
    s.busif.state = .directRead1 ∨ s.busif.state = .directWrite ∨
      cached (lineOf c (bifo c s (grants c s i)).adrO) := by
  have hfill := hd.fill
  have hofs := hd.busif.adrOfs
  revert h
  rw [bifo]
  cases hs : s.busif.state <;>
    simp only [hs, BusIf.comb, BusIf.defaults, BusIf.State.working] at hfill hofs ⊢
  case directRead1 => simp
  case directWrite => simp
  case cacheReplaceReadIdata =>
    intro _
    rw [lineOf_setBank (hofs (.inr trivial))]
    exact .inr (.inr (hfill (.inr trivial) (hd.shows.replace hs)))
  case cacheWriteBackVictim =>
    intro _
    have hu : s.busif.state.usesTag = true := by rw [hs]; rfl
    obtain ⟨adr, hc, ht, hi⟩ := hd.busifTag.tag hu
      (.inr (hd.busifTag.dirty (.inr ⟨hu, hd.busifTag.victim hs⟩)))
    have hcnt : s.busif.cnt < c.banks := hd.busif.cnt (.inr hs)
    rw [← ht, ← hi, show makeAdr c (tagOf c adr) (indexOf c adr) s.busif.cnt =
      setBank c adr s.busif.cnt from rfl, lineOf_setBank hcnt]
    exact .inr (.inr hc)
  all_goals simp

end Cycle

end ParaNut.Memu
