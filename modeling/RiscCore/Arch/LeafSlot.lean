import RiscCore.Arch.TableForest

/-!
# `Arch.LeafSlot` — nothing is lost in an entry or in an index

An entry keeps its address and its flags, the three indices and the page offset keep the low 39 bits of an
address. So the walk tells two addresses apart exactly when they differ in bits 12 to 38, as long as the
tables are a forest: tables that are shared could merge two ways down.
-/

namespace RiscCore
namespace Arch

open Mm Forest

variable {m : Mem} {roots : Set Word} {r va vb : Word}

/-- The level-0 entry at which the walk of `unmap_page` arrives: its table and its index there. -/
def leafSlot (m : Mem) (r va : Word) : Option (Word × Fin 512) :=
  (unmapWalk m va 2 r).map fun t => (t, vpnSlot va 0)

theorem leafSlot_some {t : Word} {i : Fin 512} (h : Shape m roots) (hr : r ∈ roots) :
    leafSlot m r va = some (t, i) ↔ leafTable m r va = some t ∧ vpnSlot va 0 = i := by
  unfold leafSlot
  rw [unmapWalk_eq h hr]
  cases leafTable m r va with
  | none => simp
  | some u => simp

/-- Whatever the tables hold, the page tells the slot. -/
theorem leafSlot_congr (h : vpn va = vpn vb) (m : Mem) (r : Word) : leafSlot m r va = leafSlot m r vb := by
  obtain ⟨h2, h1, h0⟩ := vpn_eq_iff.mp h
  have hwalk : unmapWalk m va 2 r = unmapWalk m vb 2 r := by
    simp only [unmapWalk, Nat.reduceAdd, h2, h1]
  unfold leafSlot
  rw [hwalk, h0]

/-- In a forest the slot tells the page. -/
theorem leafSlot_eq_iff (h : Shape m roots) (hr : r ∈ roots) {s : Word × Fin 512} (hs : leafSlot m r va = some s) :
    leafSlot m r vb = some s ↔ vpn va = vpn vb := by
  constructor
  · intro hs'
    obtain ⟨t, i⟩ := s
    obtain ⟨ht, h0⟩ := (leafSlot_some h hr).mp hs
    obtain ⟨ht', h0'⟩ := (leafSlot_some h hr).mp hs'
    obtain ⟨_, hπ⟩ := h.disjoint r hr r hr [vpnSlot va 1, vpnSlot va 2] [vpnSlot vb 1, vpnSlot vb 2]
      (Nat.le_refl 2) (Nat.le_refl 2) t ht ht'
    obtain ⟨h1, hrest⟩ := List.cons.inj hπ
    obtain ⟨h2, _⟩ := List.cons.inj hrest
    exact vpn_eq_iff.mpr ⟨h2, h1, h0.trans h0'.symm⟩
  · intro hvpn
    rw [← leafSlot_congr hvpn, hs]

theorem vpnSlot_eq_iff {level : Nat} : vpnSlot va level = vpnSlot vb level ↔ vpnIndex va level = vpnIndex vb level := by
  rw [Fin.ext_iff, ← BitVec.toNat_inj]
  rfl

theorem vpnIndex_eq_iff : (∀ level, level ≤ 2 → vpnIndex va level = vpnIndex vb level) ↔ vpn va = vpn vb := by
  rw [vpn_eq_iff, vpnSlot_eq_iff, vpnSlot_eq_iff, vpnSlot_eq_iff]
  constructor
  · intro h
    exact ⟨h 2 (by decide), h 1 (by decide), h 0 (by decide)⟩
  · rintro ⟨h2, h1, h0⟩ level hl
    obtain rfl | rfl | rfl : level = 2 ∨ level = 1 ∨ level = 0 := by omega
    · exact h2
    · exact h1
    · exact h0

/-- **The encodings of Sv39 lose nothing.** -/
theorem sv39_lossless {pa pa' flags flags' : Word} (hpa : isPageAligned pa = true) (hpa' : isPageAligned pa' = true)
    (hf : flags.toNat < 2 ^ 10) (hf' : flags'.toNat < 2 ^ 10) (va vb : Word) :
    pteToPa (makePte pa flags) = pa ∧ makePte pa flags &&& 0x3ff#64 = flags ∧
    pteValid (makePte pa flags) = pteValid flags ∧ pteLeaf (makePte pa flags) = pteLeaf flags ∧
    (makePte pa flags = makePte pa' flags' → pa = pa' ∧ flags = flags') ∧
    2 ^ 30 * (vpnIndex va 2).toNat + 2 ^ 21 * (vpnIndex va 1).toNat + 2 ^ 12 * (vpnIndex va 0).toNat +
      (pageOffset va).toNat = va.toNat % 2 ^ 39 ∧
    ((∀ level, level ≤ 2 → vpnIndex va level = vpnIndex vb level) ↔ SamePage va vb) ∧
    (SamePage va vb → ∀ (m : Mem) (r : Word), leafSlot m r va = leafSlot m r vb) ∧
    ∀ (m : Mem) (roots : Set Word) (r : Word) (s : Word × Fin 512), Shape m roots → r ∈ roots →
      leafSlot m r va = some s → (leafSlot m r vb = some s ↔ SamePage va vb) := by
  refine ⟨pteToPa_makePte hpa hf, ?_, pteValid_flags pa flags, pteLeaf_flags pa flags, makePte_inj hpa hpa' hf hf',
    vpnIndex_reassemble va, vpnIndex_eq_iff.trans vpn_eq_iff_samePage,
    fun h => leafSlot_congr (vpn_eq_iff_samePage.mpr h), ?_⟩
  · have hmask : 0x3ff#64 = Align.lowMask 64 10 := by decide
    rw [hmask, makePte_flags hf]
  · intro m roots r s h hr hs
    exact (leafSlot_eq_iff h hr hs).trans vpn_eq_iff_samePage

/-- A root with one table at each lower level, on the path of address 0. -/
def threeTables : Mem :=
  linkPage (linkPage (fun _ _ => 0#64) 0x80000000#64 (vpnSlot 0#64 2) 0x80001000#64) 0x80001000#64 (vpnSlot 0#64 1)
    0x80002000#64

theorem threeTables_path : walk (child threeTables) 0x80000000#64 [0, 0] = some 0x80002000#64 ∧
    Shape threeTables {0x80000000#64} := by
  obtain ⟨h₀, htab₀, _⟩ := plantRoot (shape_empty fun _ _ => 0#64) (fun _ _ => 0#64) (p := 0x80000000#64)
    (by rw [tables_empty]; exact Set.notMem_empty _) (fun _ => rfl) (fun _ _ _ => rfl)
  rw [tables_empty, insert_empty_eq] at htab₀
  rw [insert_empty_eq] at h₀
  have hroot : (0x80000000#64 : Word) ∈ ({0x80000000#64} : Set Word) := rfl
  have hp₁ : child (linkPage (fun _ _ => 0#64) 0x80000000#64 0 0x80001000#64) 0x80000000#64 0 = some 0x80001000#64 :=
    child_link (by decide) (by rw [linkPage_apply, if_pos ⟨rfl, rfl⟩])
  obtain ⟨hext₁, htab₁⟩ := @linkPage_extends _ _ _ _ 0x80001000#64 [] 0 h₀ hroot (by decide) rfl rfl
    (by decide) (by rw [htab₀]; simp)
  obtain ⟨hext₂, _⟩ := @linkPage_extends _ _ _ _ 0x80002000#64 [0] 0 hext₁.shape hroot (by decide) hp₁
    (by rw [linkPage_apply]; rfl) (by decide) (by rw [htab₁, htab₀]; simp)
  have hp₂ : child threeTables 0x80001000#64 0 = some 0x80002000#64 :=
    child_link (by decide) (by rw [threeTables, linkPage_apply, if_pos ⟨rfl, rfl⟩])
  have hpath : walk (child threeTables) 0x80000000#64 [0] = some 0x80001000#64 :=
    hext₂.paths _ hroot [0] _ (by decide) hp₁
  exact ⟨by rw [walk_cons, hpath, Option.bind_some, hp₂], hext₂.shape⟩

/-- Two addresses of one page meet in slot 1 of the last table. -/
theorem sv39_lossless_test : pteToPa (makePte 0x80200000#64 0xcf#64) = 0x80200000#64 ∧
    makePte 0x80200000#64 0xcf#64 ≠ makePte 0x80201000#64 0xcf#64 ∧
    leafSlot threeTables 0x80000000#64 0x1ffc#64 = some (0x80002000#64, 1) := by
  obtain ⟨hpath, hshape⟩ := threeTables_path
  have hslot : leafSlot threeTables 0x80000000#64 0x1234#64 = some (0x80002000#64, 1) :=
    (leafSlot_some hshape rfl).mpr ⟨hpath, by decide⟩
  obtain ⟨haddr, _, _, _, hinj, _, _, _, hmeet⟩ := @sv39_lossless 0x80200000#64 0x80201000#64 0xcf#64 0xcf#64
    (by decide) (by decide) (by decide) (by decide) 0x1234#64 0x1ffc#64
  exact ⟨haddr, fun heq => absurd (hinj heq).1 (by decide),
    (hmeet _ _ _ _ hshape rfl hslot).mpr (vpn_eq_iff_samePage.mp (by decide))⟩

end Arch
end RiscCore
