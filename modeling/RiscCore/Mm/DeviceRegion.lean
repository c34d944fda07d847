import RiscCore.Arch.MapUndo
import RiscCore.Mm.KernelAddressSpace

/-!
# `Mm.DeviceRegion` — what `map_device_region` covers

The base is rounded down and the size is rounded up, one without regard to the other, so `align_up(size)` bytes are
mapped from `align_down(base)` on. Where the offset of the base pushes the last byte beyond them, the device has one
page more, and it is mapped only if it was mapped onto itself before.
-/

namespace RiscCore
namespace Mm

open Pmm Arch Forest Runs Supply

variable {α : Type} {allocPage : AllocPage α} {I : Set Word → α → Prop} {roots : Set Word} {root base size a : Word}
  {m m' : Mem} {k : Nat}

/-- **Every byte of the device is mapped onto itself.** -/
def CoversDevice (m : Mem) (root base size : Word) : Prop :=
  ∀ a, base.toNat ≤ a.toNat → a.toNat < base.toNat + size.toNat → virtToPhys m root a = a

/-- The flags of a device. -/
theorem device_permitted (va pa : Word) : (PtOp.map va pa (pteR ||| pteW ||| pteA ||| pteD)).Permitted :=
  ⟨by decide, by decide⟩

theorem pageCount_aligned (h : size.toNat % 4096 = 0) : size.toNat = pageCount size * 4096 := by
  unfold pageCount
  omega

/-- The pages from the rounded base on, as many as the rounded size asks for. -/
theorem device_pages (hfit : base.toNat + size.toNat + 4095 < 2 ^ 64) :
    (alignUp size).toNat = pageCount (alignUp size) * 4096 ∧
      (alignDown base).toNat + (alignUp size).toNat + 4095 < 2 ^ 64 ∧
      (alignDown base + alignUp size).toNat = (alignDown base).toNat + (alignUp size).toNat := by
  have hsize : size.toNat + 4095 < 2 ^ 64 := by omega
  have hup : (alignUp size).toNat = (size.toNat + 4095) / 4096 * 4096 := alignUp_toNat hsize
  have hdown := alignDown_toNat base
  have hal := alignUp_aligned size
  refine ⟨pageCount_aligned hal, by omega, ?_⟩
  rw [BitVec.toNat_add]
  omega

/-- An identity mapping of one page maps every byte of it. -/
theorem identity_page (h : Shape m roots) (hr : root ∈ roots) {u : Word} (hu : isPageAligned u = true)
    (hne : u ≠ 0#64) (hpage : virtToPhys m root u = u) (hlo : u.toNat ≤ a.toNat) (hhi : a.toNat < u.toNat + 4096) :
    virtToPhys m root a = a := by
  have hal := isPageAligned_iff.mp hu
  have hdown : alignDown a = u := by
    apply BitVec.eq_of_toNat_eq
    rw [alignDown_toNat]; omega
  have hvpn : vpn a = vpn u := by
    rw [← BitVec.toNat_inj, vpn_toNat, vpn_toNat]
    omega
  have hnull : root ≠ 0#64 := by
    intro hz
    rw [virtToPhys, if_pos hz] at hpage
    exact hne hpage.symm
  -- the translation of the page is not 0, so its entry is a leaf
  rw [virtToPhys_spec h hr hnull] at hpage ⊢
  rw [entryAt_congr hvpn]
  split at hpage
  · rename_i hleaf
    rw [if_pos hleaf]
    rw [pageOffset_aligned hu, BitVec.add_zero] at hpage
    rw [hpage, ← hdown, alignDown_add_offset]
  · exact absurd hpage.symm hne

/-- Where the call succeeds, the first of its pages were free, and they are mapped onto themselves now. -/
theorem mapDeviceRegion_maps (hok : AllocOk allocPage I) {w w' : World α} (h : Shape w.mem {root})
    (hI : I (tables w.mem {root}) w.src) (hfit : base.toNat + size.toNat + 4095 < 2 ^ 64) (hsize : size ≠ 0#64)
    (hmap : mapDeviceRegion allocPage w root base size = some (true, w')) :
    root ≠ 0#64 ∧ Shape w'.mem {root} ∧
      PrefixMapped {root} root (alignDown base) (alignDown base) (pteR ||| pteW ||| pteA ||| pteD) w.mem
        (pageCount (alignUp size)) w'.mem ∧
      ∀ j < pageCount (alignUp size), pteValid (entryAt w.mem root (pageAddr (alignDown base) j)) = false := by
  have hmem := Set.mem_singleton root
  have hva : isPageAligned (alignDown base) = true := isPageAligned_iff.mpr (alignDown_aligned base)
  obtain ⟨hpages, hfit', _⟩ := device_pages hfit
  obtain ⟨ok, w₁, k, hrange, h', _, hnull, hp, _, hall, _⟩ :=
    mapRange_maps hok h hI hmem hva hva hfit' (pteR ||| pteW ||| pteA ||| pteD)
  obtain ⟨rfl, rfl⟩ := Prod.mk.inj (Option.some.inj (hmap.symm.trans hrange))
  obtain ⟨rfl, hmaps⟩ := hall rfl
  have hpos : 0 < pageCount (alignUp size) := by
    have hne : size.toNat ≠ 0 := BitVec.toNat_ne.mp hsize
    have hup : size.toNat + 4095 < 2 ^ 64 := by omega
    have hval : (alignUp size).toNat = (size.toNat + 4095) / 4096 * 4096 := alignUp_toNat hup
    omega
  exact ⟨hnull hpos, h', hp, fun j hj => (hmaps.free hok h hI hmem j hj).1⟩

/-- A page that is not among those mapped now is mapped onto itself exactly if it was before. -/
theorem identity_beyond_iff {va u : Word} {n : Nat} (h : Shape m {root}) (h' : Shape m' {root}) (hnull : root ≠ 0#64)
    (hp : PrefixMapped {root} root va va (pteR ||| pteW ||| pteA ||| pteD) m n m')
    (hfree : ∀ j < n, pteValid (entryAt m root (pageAddr va j)) = false) (hva : isPageAligned va = true)
    (hu : isPageAligned u = true) (hne : u ≠ 0#64) (hout : ∀ j < n, pageAddr va j ≠ u) :
    virtToPhys m' root u = u ↔ virtToPhys m root u = u := by
  have hmem := Set.mem_singleton root
  by_cases hin : ∃ j < n, vpn u = vpn (pageAddr va j)
  · -- its page number is in use for a page of the device, which was free before and is not `u`
    obtain ⟨j, hj, hv⟩ := hin
    have hbefore : virtToPhys m root u = 0#64 :=
      virtToPhys_invalid h hmem (by rw [entryAt_congr hv]; exact hfree j hj)
    have hafter : virtToPhys m' root u = pageAddr va j + pageOffset u := by
      have hentry : entryAt m' root u = makePte (pageAddr va j) ((pteR ||| pteW ||| pteA ||| pteD) ||| pteV) := by
        rw [entryAt_congr hv]
        exact hp.pages j hj
      exact virtToPhys_mapped h' hmem hnull hentry (pageAddr_isPageAligned hva j) (by decide) (by decide)
    rw [hbefore, hafter, pageOffset_aligned hu, BitVec.add_zero]
    exact ⟨fun he => absurd he (hout j hj), fun he => absurd he.symm hne⟩
  · rw [virtToPhys_congr h h' hmem (hp.frame root hmem u fun hc => hin hc.2)]

/-- **When a mapped device is covered:** the rounded size reaches its last byte, or the one page beyond was mapped
    onto itself before. -/
theorem map_device_region_iff (hok : AllocOk allocPage I) {w : World α} {c : Space α}
    (hzero : ∀ i, w.mem root i = 0#64) (hI : I {root} w.src)
    (hr : Reach (Space.step allocPage root) (fun _ _ => True) ⟨w, []⟩ c) (hsize : size ≠ 0#64)
    (hfit : base.toNat + size.toNat + 4095 < 2 ^ 64) {w' : World α}
    (hmap : mapDeviceRegion allocPage c.world root base size = some (true, w')) :
    CoversDevice w'.mem root base size ↔ (pageOffset base).toNat + size.toNat ≤ (alignUp size).toNat ∨
      virtToPhys c.world.mem root (alignDown base + alignUp size) = alignDown base + alignUp size := by
  obtain ⟨hshape, hI'⟩ := shape_reach hok hzero hI hr
  have hmem := Set.mem_singleton root
  obtain ⟨hnull, hshape', hp, hfree⟩ := mapDeviceRegion_maps hok hshape hI' hfit hsize hmap
  obtain ⟨hpages, hfit', hbeyond⟩ := device_pages hfit
  have hva : isPageAligned (alignDown base) = true := isPageAligned_iff.mpr (alignDown_aligned base)
  have hround : size.toNat + 4095 < 2 ^ 64 := by omega
  have hup : (alignUp size).toNat = (size.toNat + 4095) / 4096 * 4096 := alignUp_toNat hround
  have hdown := alignDown_toNat base
  have hoff := pageOffset_toNat base
  have hpos : size.toNat ≠ 0 := BitVec.toNat_ne.mp hsize
  -- the mapped bytes
  have hinside : ∀ a, base.toNat ≤ a.toNat → a.toNat < (alignDown base).toNat + (alignUp size).toNat →
      virtToPhys w'.mem root a = a := by
    intro a hlo hhi
    rw [hpages] at hhi
    have ha := hp.translates hshape' hmem hnull hva hva (device_permitted _ _) (by omega) hhi
    rw [ha, BitVec.add_comm, BitVec.sub_add_cancel]
  -- the first page beyond them
  generalize hu : alignDown base + alignUp size = u at hbeyond ⊢
  have hualign : isPageAligned u = true := isPageAligned_iff.mpr (by rw [hbeyond]; omega)
  have hune : u ≠ 0#64 := by
    intro hz
    rw [hz, BitVec.toNat_ofNat] at hbeyond
    omega
  have hkeep : virtToPhys w'.mem root u = u ↔ virtToPhys c.world.mem root u = u := by
    refine identity_beyond_iff hshape hshape' hnull hp hfree hva hualign hune (fun j hj he => ?_)
    have hlt : (alignDown base).toNat + pageCount (alignUp size) * 4096 < 2 ^ 64 := by omega
    have hval := FrameSet.pageAddr_toNat_of_le hlt (Nat.le_of_lt hj)
    rw [he, hbeyond] at hval
    omega
  constructor
  · intro hall
    by_cases hreach : (pageOffset base).toNat + size.toNat ≤ (alignUp size).toNat
    · exact Or.inl hreach
    · exact Or.inr (hkeep.mp (hall u (by omega) (by omega)))
  · intro hcond a hlo hhi
    by_cases hin : a.toNat < (alignDown base).toNat + (alignUp size).toNat
    · exact hinside a hlo hin
    · rcases hcond with hreach | hbefore
      · omega
      · exact identity_page hshape' hmem hualign hune (hkeep.mpr hbefore) (by omega) (by omega)

/-- A device that begins inside a page and ends in the same one is covered. -/
theorem map_device_region_test : ∃ w' : World (List Word),
    mapDeviceRegion playback ⟨fun _ _ => 0#64, [0x80001000#64, 0x80002000#64]⟩ 0x80000000#64 0x10000200#64 0x300#64 =
      some (true, w') ∧ CoversDevice w'.mem 0x80000000#64 0x10000200#64 0x300#64 := by
  have hfst : (mapDeviceRegion playback ⟨fun _ _ => 0#64, [0x80001000#64, 0x80002000#64]⟩ 0x80000000#64
      0x10000200#64 0x300#64).map Prod.fst = some true := by decide +kernel
  obtain ⟨⟨ok, w'⟩, hmap, hok⟩ := Option.map_eq_some_iff.mp hfst
  obtain rfl : ok = true := hok
  have hfit : (0x10000200#64 : Word).toNat + (0x300#64 : Word).toNat + 4095 < 2 ^ 64 := by decide
  exact ⟨w', hmap, (map_device_region_iff (c := ⟨⟨fun _ _ => 0#64, [0x80001000#64, 0x80002000#64]⟩, []⟩) playback_ok
    (fun _ => rfl) playable_two Reach.refl (by decide) hfit hmap).mpr (Or.inl (by decide))⟩

/-- A device of 512 bytes on both sides of a page boundary: the call succeeds and its second half is not mapped. -/
theorem device_cut_off : ∃ w' : World (List Word),
    mapDeviceRegion playback ⟨fun _ _ => 0#64, [0x80001000#64, 0x80002000#64]⟩ 0x80000000#64 0x10000f00#64 0x200#64 =
      some (true, w') ∧ virtToPhys w'.mem 0x80000000#64 0x10001000#64 = 0#64 ∧
      ¬ CoversDevice w'.mem 0x80000000#64 0x10000f00#64 0x200#64 := by
  have hrun : (mapDeviceRegion playback ⟨fun _ _ => 0#64, [0x80001000#64, 0x80002000#64]⟩ 0x80000000#64
      0x10000f00#64 0x200#64).map (fun p => (p.1, virtToPhys p.2.mem 0x80000000#64 0x10001000#64)) =
      some (true, 0#64) := by decide +kernel
  obtain ⟨⟨ok, w'⟩, hmap, hres⟩ := Option.map_eq_some_iff.mp hrun
  obtain ⟨rfl, hphys⟩ : ok = true ∧ virtToPhys w'.mem 0x80000000#64 0x10001000#64 = 0#64 := Prod.mk.inj hres
  refine ⟨w', hmap, hphys, fun hall => ?_⟩
  rw [hall 0x10001000#64 (by decide) (by decide)] at hphys
  exact absurd hphys (by decide)

end Mm
end RiscCore
