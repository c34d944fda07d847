import RiscCore.Arch.MapExact
import RiscCore.Mm.Frames

/-!
# `Arch.MapRange` — `map_range` maps the range, or a prefix of it

Both cursors advance by one page, so iteration `k` is the call of `map_page` on pages `pageAddr va k` and
`pageAddr pa k` (the physical side may wrap). `mapRange_pages` is the rule for the loop: an assertion indexed by
the number of pages done, kept by each call that succeeds, holds of all pages at the end or of the first `k` when
call `k` fails. `MapsPages` is what the loop has done, `PrefixMapped` what that means for the entries.
-/

namespace RiscCore
namespace Arch

open Mm Pmm Forest Runs Supply

variable {α : Type} {allocPage : AllocPage α} {I : Set Word → α → Prop} {roots : Set Word}
  {root va pa size flags : Word} {n : Nat}

/-- The pages of a range of `size` bytes that starts at a page. -/
def pageCount (size : Word) : Nat := (size.toNat + 4095) / 4096

theorem pageAddr_zero (base : Word) : pageAddr base 0 = base := by simp [pageAddr]

/-- Every page of a range is aligned, also one past the end of the address space. -/
theorem pageAddr_isPageAligned {base : Word} (h : isPageAligned base = true) (k : Nat) :
    isPageAligned (pageAddr base k) = true := by
  rw [isPageAligned_iff] at h ⊢
  rw [FrameSet.pageAddr_toNat_mod]
  omega

/-- `align_up(va + size)` is the end of the last page. -/
theorem alignUp_range (hva : isPageAligned va = true) (hfit : va.toNat + size.toNat + 4095 < 2 ^ 64) :
    alignUp (va + size) = pageAddr va (pageCount size) ∧ va.toNat + pageCount size * 4096 < 2 ^ 64 := by
  have hal := isPageAligned_iff.mp hva
  have hsum : (va + size).toNat = va.toNat + size.toNat := by
    rw [BitVec.toNat_add]; omega
  have hlt : va.toNat + pageCount size * 4096 < 2 ^ 64 := by
    rw [pageCount]; omega
  refine ⟨BitVec.eq_of_toNat_eq ?_, hlt⟩
  rw [alignUp_toNat (by omega), FrameSet.pageAddr_toNat_of_le hlt (Nat.le_refl _), hsum, pageCount]
  omega

/-! ## The loop -/

/-- Between page-aligned ends the cursor is below the end for as many pages as lie there. -/
theorem cursor_lt {stop : Word} (hva : va.toNat % 4096 = 0) (hstop : stop.toNat % 4096 = 0) :
    ∀ k ≤ (stop.toNat - va.toNat) / 4096, pageAddr va k < stop ↔ k < (stop.toNat - va.toNat) / 4096 := by
  intro k hk
  have hmax := stop.isLt
  have hlt := va.isLt
  have hfit : va.toNat + (stop.toNat - va.toNat) / 4096 * 4096 < 2 ^ 64 := by omega
  rw [BitVec.lt_def, FrameSet.pageAddr_toNat_of_le hfit hk]
  omega

/-- **The rule for the loop.** -/
theorem mapRangeLoop_pages {P : Nat → World α → Prop} {stop : Word}
    (hcursor : ∀ k ≤ n, pageAddr va k < stop ↔ k < n)
    (hstep : ∀ k w, k < n → P k w → ∃ ok w',
      mapPage allocPage w root (pageAddr va k) (pageAddr pa k) flags = some (ok, w') ∧ (ok = true → P (k + 1) w')) :
    ∀ (fuel k : Nat) (w : World α), k ≤ n → n - k < fuel → P k w → ∃ ok w',
      mapRangeLoop allocPage root flags stop fuel w (pageAddr va k) (pageAddr pa k) = some (ok, w') ∧
      (ok = true → P n w') ∧
      (ok = false → ∃ k' < n, ∃ wk, P k' wk ∧
        mapPage allocPage wk root (pageAddr va k') (pageAddr pa k') flags = some (false, w')) := by
  intro fuel
  induction fuel with
  | zero =>
      intro k w _ hfuel _
      exact absurd hfuel (Nat.not_lt_zero _)
  | succ fuel ih =>
      intro k w hkn hfuel hP
      by_cases hlt : k < n
      · have hbelow := (hcursor k hkn).mpr hlt
        obtain ⟨ok, w', hmap, hnext⟩ := hstep k w hlt hP
        cases ok with
        | false =>
            refine ⟨false, w', by simp [mapRangeLoop, hbelow, hmap], fun hc => absurd hc (by simp), ?_⟩
            exact fun _ => ⟨k, hlt, w, hP, hmap⟩
        | true =>
            obtain ⟨ok', w'', hloop, hend⟩ := ih (k + 1) w' hlt (by omega) (hnext rfl)
            refine ⟨ok', w'', ?_, hend⟩
            rw [← FrameSet.pageAddr_succ va, ← FrameSet.pageAddr_succ pa] at hloop
            simp [mapRangeLoop, hbelow, hmap, hloop]
      · obtain rfl : k = n := Nat.le_antisymm hkn (Nat.le_of_not_lt hlt)
        exact ⟨true, w, by simp [mapRangeLoop, hcursor], fun _ => hP, fun hc => absurd hc (by simp)⟩

/-- The pages from `va` to the rounded end, as the source computes it: those the loop visits unless a call fails. -/
def visits (va size : Word) : Nat := ((alignUp (va + size)).toNat - va.toNat) / 4096

/-- Where the end does not wrap, these are all pages of the range. -/
theorem visits_eq (hva : isPageAligned va = true) (hfit : va.toNat + size.toNat + 4095 < 2 ^ 64) :
    visits va size = pageCount size := by
  obtain ⟨hend, hlt⟩ := alignUp_range hva hfit
  rw [visits, hend, FrameSet.pageAddr_toNat_of_le hlt (Nat.le_refl _), Nat.add_sub_cancel_left,
    Nat.mul_div_cancel _ (by decide)]

theorem visits_zero (hva : isPageAligned va = true) : visits va 0#64 = 0 := by
  have hal := isPageAligned_iff.mp hva
  have hmax := va.isLt
  rw [visits, BitVec.add_zero, alignUp_toNat (by omega)]
  omega

/-- **The rule for `map_range`**, wherever the range ends. -/
theorem mapRange_rule {P : Nat → World α → Prop} (hva : isPageAligned va = true) (hpa : isPageAligned pa = true)
    (flags : Word)
    (hstep : ∀ k w, k < visits va size → P k w → ∃ ok w',
      mapPage allocPage w root (pageAddr va k) (pageAddr pa k) flags = some (ok, w') ∧ (ok = true → P (k + 1) w'))
    {w : World α} (hP : P 0 w) :
    ∃ ok w', mapRange allocPage w root va pa size flags = some (ok, w') ∧ (ok = true → P (visits va size) w') ∧
      (ok = false → ∃ k < visits va size, ∃ wk, P k wk ∧
        mapPage allocPage wk root (pageAddr va k) (pageAddr pa k) flags = some (false, w')) := by
  by_cases hsz : size = 0#64
  · refine ⟨true, w, by rw [mapRange, if_pos hsz], fun _ => ?_, fun hc => absurd hc (by simp)⟩
    rw [hsz, visits_zero hva]; exact hP
  · have hmax := (alignUp (va + size)).isLt
    have hfuel : visits va size - 0 < 2 ^ 52 := by rw [visits]; omega
    obtain ⟨ok, w', hloop, hres⟩ := mapRangeLoop_pages
      (cursor_lt (isPageAligned_iff.mp hva) (alignUp_aligned (va + size))) hstep (2 ^ 52) 0 w (Nat.zero_le _) hfuel hP
    rw [pageAddr_zero, pageAddr_zero] at hloop
    refine ⟨ok, w', ?_, hres⟩
    rw [mapRange, if_neg hsz, hva, hpa]
    exact hloop

/-- **What every call of `map_page` keeps, `map_range` keeps.** -/
theorem mapRange_keeps {P : World α → Prop}
    (hstep : ∀ w va pa, P w → ∃ ok w', mapPage allocPage w root va pa flags = some (ok, w') ∧ P w')
    {w : World α} (hP : P w) (va pa size : Word) :
    ∃ ok w', mapRange allocPage w root va pa size flags = some (ok, w') ∧ P w' := by
  by_cases hsz : size = 0#64
  · exact ⟨true, w, by rw [mapRange, if_pos hsz], hP⟩
  by_cases hal : (!isPageAligned va || !isPageAligned pa) = true
  · exact ⟨false, w, by rw [mapRange, if_neg hsz, if_pos hal], hP⟩
  have halign : isPageAligned va = true ∧ isPageAligned pa = true := by
    simpa [not_or] using hal
  obtain ⟨ok, w', hrange, hall, hsome⟩ := mapRange_rule (P := fun _ => P) halign.1 halign.2 flags
    (fun k w _ hP => by
      obtain ⟨ok, w', hmap, hP'⟩ := hstep w (pageAddr va k) (pageAddr pa k) hP
      exact ⟨ok, w', hmap, fun _ => hP'⟩) hP
  refine ⟨ok, w', hrange, ?_⟩
  cases ok with
  | true => exact hall rfl
  | false =>
      obtain ⟨k, _, wk, hPk, hfail⟩ := hsome rfl
      obtain ⟨ok, w₂, hmap, hP₂⟩ := hstep wk (pageAddr va k) (pageAddr pa k) hPk
      obtain ⟨rfl, rfl⟩ := Prod.mk.inj (Option.some.inj (hfail.symm.trans hmap))
      exact hP₂

/-- The rule where the end does not wrap. -/
theorem mapRange_pages {P : Nat → World α → Prop} (hva : isPageAligned va = true) (hpa : isPageAligned pa = true)
    (hfit : va.toNat + size.toNat + 4095 < 2 ^ 64) (flags : Word)
    (hstep : ∀ k w, k < pageCount size → P k w → ∃ ok w',
      mapPage allocPage w root (pageAddr va k) (pageAddr pa k) flags = some (ok, w') ∧ (ok = true → P (k + 1) w'))
    {w : World α} (hP : P 0 w) :
    ∃ ok w', mapRange allocPage w root va pa size flags = some (ok, w') ∧ (ok = true → P (pageCount size) w') ∧
      (ok = false → ∃ k < pageCount size, ∃ wk, P k wk ∧
        mapPage allocPage wk root (pageAddr va k) (pageAddr pa k) flags = some (false, w')) := by
  rw [← visits_eq hva hfit] at hstep ⊢
  exact mapRange_rule hva hpa flags hstep hP

/-- The first `k` calls of `map_page` in the loop succeed and lead from `w` to the world given. -/
inductive MapsPages (allocPage : AllocPage α) (root va pa flags : Word) (w : World α) : Nat → World α → Prop where
  | zero : MapsPages allocPage root va pa flags w 0 w
  | succ {k : Nat} {w₁ w₂ : World α} : MapsPages allocPage root va pa flags w k w₁ →
      mapPage allocPage w₁ root (pageAddr va k) (pageAddr pa k) flags = some (true, w₂) →
      MapsPages allocPage root va pa flags w (k + 1) w₂

/-! ## What the entries hold -/

/-- The entries of the first `k` pages of the range are those of the range, all others are those of `m`. -/
structure PrefixMapped (roots : Set Word) (root va pa flags : Word) (m : Mem) (k : Nat) (m' : Mem) : Prop where
  pages : ∀ j < k, entryAt m' root (pageAddr va j) = makePte (pageAddr pa j) (flags ||| pteV)
  frame : ∀ r ∈ roots, ∀ a, ¬ (r = root ∧ ∃ j < k, vpn a = vpn (pageAddr va j)) → entryAt m' r a = entryAt m r a

variable {m m' m'' : Mem} {r a b : Word} {k : Nat}

/-- An entry belongs to a page number. -/
theorem entryAt_congr (h : vpn a = vpn b) : entryAt m r a = entryAt m r b := by
  obtain ⟨h2, h1, h0⟩ := vpn_eq_iff.mp h
  have hleaf : leafTable m r a = leafTable m r b := by
    rw [leafTable, leafTable, h1, h2]
  rw [entryAt, entryAt, hleaf, h0]

theorem PrefixMapped.zero : PrefixMapped roots root va pa flags m 0 m where
  pages := fun _ hj => absurd hj (Nat.not_lt_zero _)
  frame := fun _ _ _ _ => rfl

/-- One page more. Its entry was free, so it is none of the first `k` pages again. -/
theorem PrefixMapped.succ (h : PrefixMapped roots root va pa flags m k m') (hr : root ∈ roots)
    (hfree : pteValid (entryAt m' root (pageAddr va k)) = false)
    (hent : ∀ r ∈ roots, ∀ a, entryAt m'' r a =
      if r = root ∧ vpn a = vpn (pageAddr va k) then makePte (pageAddr pa k) (flags ||| pteV) else entryAt m' r a) :
    PrefixMapped roots root va pa flags m (k + 1) m'' where
  pages := by
    intro j hj
    rw [hent root hr]
    rcases Nat.lt_succ_iff_lt_or_eq.mp hj with hlt | rfl
    · have hne : ¬ (root = root ∧ vpn (pageAddr va j) = vpn (pageAddr va k)) := by
        rintro ⟨_, hv⟩
        rw [← entryAt_congr hv, h.pages j hlt, pteValid_makePte] at hfree
        exact absurd hfree (by simp)
      rw [if_neg hne]
      exact h.pages j hlt
    · rw [if_pos ⟨rfl, rfl⟩]
  frame := by
    intro r hr' a hout
    have hk : ¬ (r = root ∧ vpn a = vpn (pageAddr va k)) :=
      fun hc => hout ⟨hc.1, k, Nat.lt_succ_self k, hc.2⟩
    rw [hent r hr' a, if_neg hk]
    exact h.frame r hr' a fun ⟨he, j, hj, hv⟩ => hout ⟨he, j, Nat.lt_succ_of_lt hj, hv⟩

/-- What a leaf entry translates to. -/
theorem virtToPhys_mapped (h : Shape m roots) (hr : root ∈ roots) (hnull : root ≠ 0#64)
    (he : entryAt m root a = makePte pa (flags ||| pteV)) (hpa : isPageAligned pa = true)
    (hlt : flags.toNat < 2 ^ 10) (hleaf : pteLeaf flags = true) : virtToPhys m root a = pa + pageOffset a := by
  rw [virtToPhys_spec h hr hnull, he, pteValid_makePte, pteLeaf_makePte, hleaf, Bool.and_self, if_pos rfl,
    pteToPa_makePte hpa (flags_or_lt hlt)]

/-- An address of the range and its page. -/
theorem page_of_range (pa : Word) (hva : isPageAligned va = true) (hlo : va.toNat ≤ a.toNat) :
    vpn a = vpn (pageAddr va ((a.toNat - va.toNat) / 4096)) ∧
      pageAddr pa ((a.toNat - va.toNat) / 4096) + pageOffset a = pa + (a - va) := by
  have hal := isPageAligned_iff.mp hva
  have hmax := a.isLt
  have hpage : (pageAddr va ((a.toNat - va.toNat) / 4096)).toNat = a.toNat / 4096 * 4096 := by
    rw [FrameSet.pageAddr_toNat_mod]; omega
  constructor
  · rw [← BitVec.toNat_inj, vpn_toNat, vpn_toNat, hpage]
    omega
  · apply BitVec.eq_of_toNat_eq
    rw [BitVec.toNat_add, BitVec.toNat_add, FrameSet.pageAddr_toNat_mod, pageOffset_toNat,
      BitVec.toNat_sub_of_le (BitVec.le_def.mpr hlo)]
    omega

/-- **The translation of a prefix.** -/
theorem PrefixMapped.translates (hp : PrefixMapped roots root va pa flags m k m') (h : Shape m' roots)
    (hr : root ∈ roots) (hnull : root ≠ 0#64) (hva : isPageAligned va = true) (hpa : isPageAligned pa = true)
    (hflags : (PtOp.map va pa flags).Permitted) (hlo : va.toNat ≤ a.toNat) (hhi : a.toNat < va.toNat + k * 4096) :
    virtToPhys m' root a = pa + (a - va) := by
  obtain ⟨hv, hsum⟩ := page_of_range pa hva hlo
  have hj : (a.toNat - va.toNat) / 4096 < k := by omega
  have hent : entryAt m' root a =
      makePte (pageAddr pa ((a.toNat - va.toNat) / 4096)) (flags ||| pteV) := by
    rw [entryAt_congr hv]
    exact hp.pages _ hj
  rw [← hsum]
  exact virtToPhys_mapped h hr hnull hent (pageAddr_isPageAligned hpa _) hflags.1 (bne_iff_ne.mpr hflags.2)

/-! ## Identity mappings below `2 ^ 39` -/

/-- `a` lies in one of the `n` pages from `va` on. -/
def InPages (va : Word) (n : Nat) (a : Word) : Prop := va.toNat ≤ a.toNat ∧ a.toNat < va.toNat + n * 4096

instance (va : Word) (n : Nat) (a : Word) : Decidable (InPages va n a) := inferInstanceAs (Decidable (_ ∧ _))

theorem inPages_pageAddr {j : Nat} (hfit : va.toNat + n * 4096 < 2 ^ 64) (hj : j < n) :
    InPages va n (pageAddr va j) := by
  unfold InPages
  rw [FrameSet.pageAddr_toNat_of_le hfit (Nat.le_of_lt hj)]
  omega

/-- Below `2 ^ 39` a page number is one page. -/
theorem page_eq_of_vpn (ha : a.toNat < 2 ^ 39) (hb : b.toNat < 2 ^ 39) (h : vpn a = vpn b) :
    a.toNat / 4096 = b.toNat / 4096 := by
  rw [← BitVec.toNat_inj, vpn_toNat, vpn_toNat] at h
  omega

/-- **The entries of an identity mapping.** -/
theorem PrefixMapped.identity (h : PrefixMapped roots root va va flags m k m') (hr : root ∈ roots)
    (hva : isPageAligned va = true) (hhi : va.toNat + k * 4096 ≤ 2 ^ 39) (ha : a.toNat < 2 ^ 39) :
    entryAt m' root a = if InPages va k a then makePte (alignDown a) (flags ||| pteV) else entryAt m root a := by
  have hal := isPageAligned_iff.mp hva
  by_cases hin : InPages va k a
  · rw [if_pos hin]
    obtain ⟨hlo, hlt⟩ := hin
    obtain ⟨hv, _⟩ := page_of_range va hva hlo
    have hpage : pageAddr va ((a.toNat - va.toNat) / 4096) = alignDown a := by
      apply BitVec.eq_of_toNat_eq
      rw [FrameSet.pageAddr_toNat_mod, alignDown_toNat]
      omega
    rw [entryAt_congr hv, h.pages _ (by omega), hpage]
  · rw [if_neg hin]
    apply h.frame root hr
    rintro ⟨_, j, hj, hv⟩
    have hfit : va.toNat + k * 4096 < 2 ^ 64 := Nat.lt_of_le_of_lt hhi (by decide)
    have hpage := FrameSet.pageAddr_toNat_of_le hfit (Nat.le_of_lt hj)
    have heq := page_eq_of_vpn ha (by omega) hv
    rw [hpage] at heq
    exact hin ⟨by omega, by omega⟩

/-! ## A range over any table -/

/-- What successful calls leave, whatever the allocator, as long as it keeps its contract. -/
theorem MapsPages.prefix_mapped (hok : AllocOk allocPage I) {w w' : World α} (h : Shape w.mem roots)
    (hI : I (tables w.mem roots) w.src) (hr : root ∈ roots)
    (hmaps : MapsPages allocPage root va pa flags w k w') :
    Shape w'.mem roots ∧ I (tables w'.mem roots) w'.src ∧ (0 < k → root ≠ 0#64) ∧
      PrefixMapped roots root va pa flags w.mem k w'.mem := by
  induction hmaps with
  | zero => exact ⟨h, hI, fun hc => absurd hc (Nat.lt_irrefl 0), PrefixMapped.zero⟩
  | @succ k w₁ w₂ _ hmap ih =>
      obtain ⟨h₁, hI₁, _, hp⟩ := ih
      obtain ⟨ok, w', hmap', h₂, hI₂, _, hdone⟩ := mapPage_spec hok h₁ hI₁ hr (pageAddr va k) (pageAddr pa k) flags
      obtain ⟨rfl, rfl⟩ := Prod.mk.inj (Option.some.inj (hmap.symm.trans hmap'))
      obtain ⟨hnull, _, _, hfree, hent⟩ := hdone rfl
      exact ⟨h₂, hI₂, fun _ => hnull, hp.succ hr hfree hent⟩

/-- A call that fails changes no entry. -/
theorem MapsPages.failed (hok : AllocOk allocPage I) {w wk w' : World α} (h : Shape w.mem roots)
    (hI : I (tables w.mem roots) w.src) (hr : root ∈ roots)
    (hmaps : MapsPages allocPage root va pa flags w k wk)
    (hfail : mapPage allocPage wk root (pageAddr va k) (pageAddr pa k) flags = some (false, w')) :
    Shape w'.mem roots ∧ I (tables w'.mem roots) w'.src ∧ (0 < k → root ≠ 0#64) ∧
      PrefixMapped roots root va pa flags w.mem k w'.mem := by
  obtain ⟨hk, hIk, hnull, hp⟩ := hmaps.prefix_mapped hok h hI hr
  obtain ⟨ok, w₂, hmap, h₂, hI₂, hkept, _⟩ := mapPage_spec hok hk hIk hr (pageAddr va k) (pageAddr pa k) flags
  obtain ⟨rfl, rfl⟩ := Prod.mk.inj (Option.some.inj (hfail.symm.trans hmap))
  refine ⟨h₂, hI₂, hnull, fun j hj => ?_, fun r hr' a hout => ?_⟩
  · rw [hkept rfl root hr]; exact hp.pages j hj
  · rw [hkept rfl r hr' a]; exact hp.frame r hr' a hout

/-- The pages of successful calls were free before, and are different pages. -/
theorem MapsPages.free (hok : AllocOk allocPage I) {w w' : World α} (h : Shape w.mem roots)
    (hI : I (tables w.mem roots) w.src) (hr : root ∈ roots)
    (hmaps : MapsPages allocPage root va pa flags w k w') :
    ∀ j < k, pteValid (entryAt w.mem root (pageAddr va j)) = false ∧
      ∀ i < j, vpn (pageAddr va j) ≠ vpn (pageAddr va i) := by
  induction hmaps with
  | zero => exact fun j hj => absurd hj (Nat.not_lt_zero j)
  | @succ k w₁ w₂ hmaps hmap ih =>
      intro j hj
      rcases Nat.lt_succ_iff_lt_or_eq.mp hj with hlt | rfl
      · exact ih j hlt
      · obtain ⟨h₁, hI₁, _, hp⟩ := hmaps.prefix_mapped hok h hI hr
        obtain ⟨ok, w', hmap', _, _, _, hdone⟩ := mapPage_spec hok h₁ hI₁ hr (pageAddr va j) (pageAddr pa j) flags
        obtain ⟨rfl, rfl⟩ := Prod.mk.inj (Option.some.inj (hmap.symm.trans hmap'))
        obtain ⟨_, _, _, hfree, _⟩ := hdone rfl
        -- a page mapped by an earlier call would be valid by now
        have hnew : ∀ i < j, vpn (pageAddr va j) ≠ vpn (pageAddr va i) := by
          intro i hi hv
          rw [entryAt_congr hv, hp.pages i hi, pteValid_makePte] at hfree
          exact absurd hfree (by simp)
        rw [hp.frame root hr _ fun ⟨_, i, hi, hv⟩ => hnew i hi hv] at hfree
        exact ⟨hfree, hnew⟩

/-- **How `map_range` ends**, wherever the range does: all calls of `map_page` succeed, or the first `k` do and
    call `k` fails. Either way the entries are those of a prefix. -/
theorem mapRange_outcome (hok : AllocOk allocPage I) {w : World α} (h : Shape w.mem roots)
    (hI : I (tables w.mem roots) w.src) (hr : root ∈ roots) (hva : isPageAligned va = true)
    (hpa : isPageAligned pa = true) (size flags : Word) :
    ∃ ok w' k, mapRange allocPage w root va pa size flags = some (ok, w') ∧ Shape w'.mem roots ∧
      I (tables w'.mem roots) w'.src ∧ (0 < k → root ≠ 0#64) ∧ PrefixMapped roots root va pa flags w.mem k w'.mem ∧
      k ≤ visits va size ∧
      (ok = true → k = visits va size ∧ MapsPages allocPage root va pa flags w k w') ∧
      (ok = false → k < visits va size ∧ ∃ wk, MapsPages allocPage root va pa flags w k wk ∧
        mapPage allocPage wk root (pageAddr va k) (pageAddr pa k) flags = some (false, w')) := by
  have hstep : ∀ k w₁, k < visits va size → MapsPages allocPage root va pa flags w k w₁ → ∃ ok w₂,
      mapPage allocPage w₁ root (pageAddr va k) (pageAddr pa k) flags = some (ok, w₂) ∧
      (ok = true → MapsPages allocPage root va pa flags w (k + 1) w₂) := by
    intro k w₁ _ hmaps
    obtain ⟨h₁, hI₁, _, _⟩ := hmaps.prefix_mapped hok h hI hr
    obtain ⟨ok, w₂, hmap, _⟩ := mapPage_spec hok h₁ hI₁ hr (pageAddr va k) (pageAddr pa k) flags
    refine ⟨ok, w₂, hmap, ?_⟩
    rintro rfl
    exact MapsPages.succ hmaps hmap
  obtain ⟨ok, w', hrange, hall, hsome⟩ := mapRange_rule hva hpa flags hstep MapsPages.zero
  cases ok with
  | true =>
      have hmaps := hall rfl
      obtain ⟨h', hI', hnull, hp⟩ := hmaps.prefix_mapped hok h hI hr
      exact ⟨true, w', visits va size, hrange, h', hI', hnull, hp, Nat.le_refl _, fun _ => ⟨rfl, hmaps⟩,
        fun hc => absurd hc (by simp)⟩
  | false =>
      obtain ⟨k, hk, wk, hmaps, hfail⟩ := hsome rfl
      obtain ⟨h', hI', hnull, hp⟩ := hmaps.failed hok h hI hr hfail
      exact ⟨false, w', k, hrange, h', hI', hnull, hp, Nat.le_of_lt hk, fun hc => absurd hc (by simp),
        fun _ => ⟨hk, wk, hmaps, hfail⟩⟩

/-- The same where the end does not wrap. -/
theorem mapRange_maps (hok : AllocOk allocPage I) {w : World α} (h : Shape w.mem roots)
    (hI : I (tables w.mem roots) w.src) (hr : root ∈ roots) (hva : isPageAligned va = true)
    (hpa : isPageAligned pa = true) (hfit : va.toNat + size.toNat + 4095 < 2 ^ 64) (flags : Word) :
    ∃ ok w' k, mapRange allocPage w root va pa size flags = some (ok, w') ∧ Shape w'.mem roots ∧
      I (tables w'.mem roots) w'.src ∧ (0 < k → root ≠ 0#64) ∧ PrefixMapped roots root va pa flags w.mem k w'.mem ∧
      k ≤ pageCount size ∧
      (ok = true → k = pageCount size ∧ MapsPages allocPage root va pa flags w k w') ∧
      (ok = false → k < pageCount size ∧ ∃ wk, MapsPages allocPage root va pa flags w k wk ∧
        mapPage allocPage wk root (pageAddr va k) (pageAddr pa k) flags = some (false, w')) := by
  rw [← visits_eq hva hfit]
  exact mapRange_outcome hok h hI hr hva hpa size flags

/-- **`map_range` maps exactly the range, or exactly a prefix of it.** Over any table that calls of `map_page`
    and `unmap_page` have built: on success every address of the range translates to its place in the physical
    range and all other pages translate as before; on failure the same holds with the first `k` pages in place
    of the range, and it was `map_page` on page `k` that failed. -/
theorem map_range_exact (hok : AllocOk allocPage I) {w : World α} {c : Space α}
    (hzero : ∀ i, w.mem root i = 0#64) (hI : I {root} w.src)
    (hr : Reach (Space.step allocPage root) (fun _ _ => True) ⟨w, []⟩ c) (hva : isPageAligned va = true)
    (hpa : isPageAligned pa = true) (hfit : va.toNat + size.toNat + 4095 < 2 ^ 64)
    (hflags : (PtOp.map va pa flags).Permitted) :
    ∃ ok w', mapRange allocPage c.world root va pa size flags = some (ok, w') ∧
      (ok = true →
        (∀ a, va ≤ a → a < alignUp (va + size) → virtToPhys w'.mem root a = pa + (a - va)) ∧
        ∀ a, (∀ j < pageCount size, vpn a ≠ vpn (pageAddr va j)) →
          virtToPhys w'.mem root a = virtToPhys c.world.mem root a) ∧
      (ok = false → ∃ k < pageCount size,
        (∀ a, va ≤ a → a < pageAddr va k → virtToPhys w'.mem root a = pa + (a - va)) ∧
        (∀ a, (∀ j < k, vpn a ≠ vpn (pageAddr va j)) →
          virtToPhys w'.mem root a = virtToPhys c.world.mem root a) ∧
        ∃ wk, MapsPages allocPage root va pa flags c.world k wk ∧
          mapPage allocPage wk root (pageAddr va k) (pageAddr pa k) flags = some (false, w')) := by
  obtain ⟨hshape, hI'⟩ := shape_reach hok hzero hI hr
  have hmem := Set.mem_singleton root
  obtain ⟨hend, hlt⟩ := alignUp_range hva hfit
  obtain ⟨ok, w', k, hrange, hm, _, hnull, hp, hk, hall, hsome⟩ :=
    mapRange_maps hok hshape hI' hmem hva hpa hfit flags
  have hinside : ∀ a, va ≤ a → a < pageAddr va k → virtToPhys w'.mem root a = pa + (a - va) := by
    intro a hlo hhi
    rw [BitVec.lt_def, FrameSet.pageAddr_toNat_of_le hlt hk] at hhi
    rw [BitVec.le_def] at hlo
    exact hp.translates hm hmem (hnull (by omega)) hva hpa hflags hlo hhi
  have houtside : ∀ a, (∀ j < k, vpn a ≠ vpn (pageAddr va j)) →
      virtToPhys w'.mem root a = virtToPhys c.world.mem root a := by
    intro a hout
    apply virtToPhys_congr hshape hm hmem
    exact hp.frame root hmem a fun ⟨_, j, hj, hv⟩ => hout j hj hv
  refine ⟨ok, w', hrange, fun hok' => ?_, fun hok' => ?_⟩
  · obtain ⟨rfl, _⟩ := hall hok'
    rw [hend]
    exact ⟨hinside, houtside⟩
  · obtain ⟨hlt', wk, hmaps, hfail⟩ := hsome hok'
    exact ⟨k, hlt', hinside, houtside, wk, hmaps, hfail⟩

/-- Two pages, the second begun by one byte: its last byte is translated too. -/
theorem map_range_exact_test : ∃ w' : World (List Word),
    mapRange playback ⟨fun _ _ => 0#64, [0x80001000#64, 0x80002000#64]⟩ 0x80000000#64 0x1000#64 0x5000#64 0x1001#64
      (pteR ||| pteW) = some (true, w') ∧
    virtToPhys w'.mem 0x80000000#64 0x2fff#64 = 0x6fff#64 := by
  have hperm : (PtOp.map 0x1000#64 0x5000#64 (pteR ||| pteW)).Permitted := ⟨by decide, by decide⟩
  have hfit : (0x1000#64 : Word).toNat + (0x1001#64 : Word).toNat + 4095 < 2 ^ 64 := by decide
  obtain ⟨ok, w', hrange, hall, _⟩ := map_range_exact
    (c := ⟨⟨fun _ _ => 0#64, [0x80001000#64, 0x80002000#64]⟩, []⟩) playback_ok (fun _ => rfl) playable_two
    Reach.refl (by decide) (by decide) hfit hperm
  have hfst : (mapRange playback ⟨fun _ _ => 0#64, [0x80001000#64, 0x80002000#64]⟩ 0x80000000#64 0x1000#64
      0x5000#64 0x1001#64 (pteR ||| pteW)).map Prod.fst = some true := by decide +kernel
  rw [hrange] at hfst
  obtain rfl : ok = true := Option.some.inj hfst
  exact ⟨w', hrange, (hall rfl).1 0x2fff#64 (by decide) (by decide)⟩

end Arch
end RiscCore
