import RiscCore.Arch.Mmu

/-!
# `Arch.TranslationCache` — what a hart may remember of the tables

`enable_sv39` and `sfence_vma` empty the hart's translation cache; `map_page` and `unmap_page` do not. In between
the hart may keep the outcome of any walk it made, page by page, addresses as well as faults, and may drop it at
any time. `map_page` never replaces a mapping and `unmap_page` leaves nothing behind, so an outcome goes stale in
two ways only: an address by an `unmap_page` of its page, a fault by a `map_page` of it (`stale_only_by_call`). And
it is what the walk did give at some moment since the cache was empty (`remembered_reach`).
-/

namespace RiscCore
namespace Arch

open Mm Forest Runs
open Sv39Mmu (Privilege Access)

/-- The outcome of a walk for one page: the page it leads to, or a fault. -/
structure Cached where
  privilege : Privilege
  access : Access
  page : Word
  frame : Option Word
deriving DecidableEq, Repr

/-- The address space, and what the hart has of it. -/
structure Hart (α : Type) where
  space : Space α
  satp : Word
  cache : List Cached

variable {α : Type}

def sfenceVma (h : Hart α) : Hart α := { h with cache := [] }

def writeSatp (h : Hart α) (value : Word) : Hart α := { h with satp := value }

def enableSv39 (h : Hart α) (root : Word) : Hart α := sfenceVma (writeSatp h (makeSatp root))

/-- The walk as it would go now. -/
def Hart.translate (h : Hart α) (p : Privilege) (access : Access) (va : Word) : Option Word :=
  Sv39Mmu.translate p access (pages h.space.world.mem) h.satp va

inductive MmuOp where
  | call (op : PtOp)
  | enable
  | fence
  -- the hart on its own
  | fill (p : Privilege) (access : Access) (va : Word)
  | drop (e : Cached)
deriving DecidableEq, Repr

def MmuOp.Permitted : MmuOp → Prop
  | .call op => op.Permitted
  | _ => True

def Hart.step (allocPage : AllocPage α) (root : Word) (h : Hart α) : MmuOp → Option (Hart α)
  | .call op => do
    let space ← h.space.step allocPage root op
    return { h with space := space }
  | .enable => some (enableSv39 h root)
  | .fence => some (sfenceVma h)
  | .fill p access va =>
    let page := alignDown va
    some { h with cache := ⟨p, access, page, h.translate p access page⟩ :: h.cache }
  | .drop e => some { h with cache := h.cache.erase e }

/-- The outcomes that an access may have: the walk's, or one that is remembered for its page. -/
def Hart.Sees (h : Hart α) (p : Privilege) (access : Access) (va : Word) (r : Option Word) : Prop :=
  r = h.translate p access va ∨ ∃ e ∈ h.cache, e.privilege = p ∧ e.access = access ∧ e.page = alignDown va ∧
    r = e.frame.map (· + pageOffset va)

/-- `log` has a successful `map_page` of the page of `va`. -/
def Mapped (log : PtLog) (va : Word) : Prop :=
  ∃ va' pa flags, (PtOp.map va' pa flags, true) ∈ log ∧ vpn va' = vpn va

/-- `log` has a successful `unmap_page` of the page of `va`. -/
def Unmapped (log : PtLog) (va : Word) : Prop :=
  ∃ va', (PtOp.unmap va', true) ∈ log ∧ vpn va' = vpn va

/-- An outcome is what the walk gives now, or was overtaken by a call in `log`. -/
def Overtaken (log : PtLog) (va : Word) (now r : Option Word) : Prop :=
  r = now ∨ (r ≠ none ∧ Unmapped log va) ∨ (r = none ∧ Mapped log va)

variable {allocPage : AllocPage α} {I : Set Word → α → Prop} {root va vb : Word} {h h' : Hart α}
  {log since : PtLog} {p : Privilege} {access : Access} {now r : Option Word}

theorem Overtaken.mono {x : PtOp × Bool} (ho : Overtaken log va now r) : Overtaken (x :: log) va now r := by
  rcases ho with hnow | ⟨hr, va', hmem, hvpn⟩ | ⟨hr, va', pa, flags, hmem, hvpn⟩
  · exact Or.inl hnow
  · exact Or.inr (Or.inl ⟨hr, va', List.mem_cons_of_mem _ hmem, hvpn⟩)
  · exact Or.inr (Or.inr ⟨hr, va', pa, flags, List.mem_cons_of_mem _ hmem, hvpn⟩)

/-! ## One page, one outcome -/

theorem vpn_alignDown (va : Word) : vpn (alignDown va) = vpn va := by
  apply BitVec.eq_of_toNat_eq
  rw [vpn_toNat, vpn_toNat, alignDown_toNat]
  omega

theorem canonical_alignDown (va : Word) : Sv39Mmu.canonical (alignDown va) = Sv39Mmu.canonical va := by
  have hmax := va.isLt
  rw [Bool.eq_iff_iff, Sv39Mmu.canonical_iff, Sv39Mmu.canonical_iff, alignDown_toNat]
  omega

theorem pageOffset_alignDown (va : Word) : pageOffset (alignDown va) = 0#64 := by
  apply BitVec.eq_of_toNat_eq
  rw [pageOffset_toNat, alignDown_toNat]
  simp

theorem obtains_page (x : Option (Word × Word)) (va : Word) :
    obtains p access x va = (obtains p access x (alignDown va)).map (· + pageOffset va) := by
  cases x with
  | none => rfl
  | some y =>
      simp only [obtains, canonical_alignDown, pageOffset_alignDown, BitVec.add_zero]
      split <;> rfl

/-! ## The invariant -/

/-- What the hart remembers is explained by the calls in `since`. -/
structure Explained (I : Set Word → α → Prop) (root : Word) (since : PtLog) (h : Hart α) : Prop where
  refines : Refines (Located I) root h.space
  mode : h.satp = 0#64 ∨ h.satp = makeSatp root
  cached : ∀ e ∈ h.cache, Overtaken since e.page (h.translate e.privilege e.access e.page) e.frame

/-- Before paging the walk gives the address itself, afterwards what the map says. -/
theorem Explained.translate (hx : Explained I root since h) (p : Privilege) (access : Access) (va : Word) :
    h.translate p access va =
      if h.satp = 0#64 then some va else obtains p access (mapping h.space.log (vpn va)) va := by
  split
  · rename_i hzero
    rw [Hart.translate, hzero]
    exact Sv39Mmu.translate_bare (by decide)
  · rename_i hon
    rw [Hart.translate, hx.mode.resolve_left hon]
    exact hx.refines.hart hx.refines.alloc.2 p access va

theorem Explained.translate_page (hx : Explained I root since h) (p : Privilege) (access : Access) (va : Word) :
    h.translate p access va = (h.translate p access (alignDown va)).map (· + pageOffset va) := by
  rw [hx.translate, hx.translate]
  split
  · rw [Option.map_some, alignDown_add_offset]
  · rw [vpn_alignDown, ← obtains_page]

/-- Whatever an access sees is explained. -/
theorem Explained.sees (hx : Explained I root since h) (hs : h.Sees p access va r) :
    Overtaken since va (h.translate p access va) r := by
  rcases hs with rfl | ⟨e, he, rfl, rfl, hpage, rfl⟩
  · exact Or.inl rfl
  · have hunmapped : Unmapped since e.page → Unmapped since va := by
      rintro ⟨va', hmem, hvpn⟩
      exact ⟨va', hmem, by rw [hvpn, hpage, vpn_alignDown]⟩
    have hmapped : Mapped since e.page → Mapped since va := by
      rintro ⟨va', pa, flags, hmem, hvpn⟩
      exact ⟨va', pa, flags, hmem, by rw [hvpn, hpage, vpn_alignDown]⟩
    rw [hx.translate_page]
    rcases hx.cached e he with hnow | ⟨hr, hun⟩ | ⟨hr, hmap⟩
    · rw [hnow, hpage]
      exact Or.inl rfl
    · refine Or.inr (Or.inl ⟨?_, hunmapped hun⟩)
      rw [ne_eq, Option.map_eq_none_iff]
      exact hr
    · exact Or.inr (Or.inr ⟨by rw [hr]; rfl, hmapped hmap⟩)

/-- One call moves one page: from nothing to something, or to nothing. -/
theorem overtaken_call (hok : AllocOk allocPage (Located I)) (hx : Explained I root since h) {op : PtOp}
    {space : Space α} (hst : h.space.step allocPage root op = some space) :
    ∃ ok, space.log = (op, ok) :: h.space.log ∧ ∀ p access va,
      Overtaken [(op, ok)] va (obtains p access (mapping space.log (vpn va)) va)
        (obtains p access (mapping h.space.log (vpn va)) va) := by
  cases op with
  | map va₀ pa flags =>
      obtain ⟨⟨ok, w'⟩, hmap, hspace⟩ := Option.bind_eq_some_iff.mp hst
      cases hspace
      refine ⟨ok, rfl, fun p access va => ?_⟩
      cases ok with
      | false => exact Or.inl rfl
      | true =>
          have hfree := refines_map_fresh hok hx.refines hmap
          by_cases hv : vpn va = vpn va₀
          · refine Or.inr (Or.inr ⟨?_, va₀, pa, flags, List.mem_singleton.mpr rfl, hv.symm⟩)
            rw [hv, hfree]
            rfl
          · rw [mapping, if_neg hv]
            exact Or.inl rfl
  | unmap va₀ =>
      obtain ⟨ok, m', hcall⟩ : ∃ ok m', unmapPage h.space.world.mem root va₀ = (ok, m') := ⟨_, _, rfl⟩
      have hspace : some (⟨{ h.space.world with mem := m' }, (.unmap va₀, ok) :: h.space.log⟩ : Space α) =
          some space := by rw [← hst, Space.step, hcall]
      obtain rfl := Option.some.inj hspace
      refine ⟨ok, rfl, fun p access va => ?_⟩
      cases ok with
      | false => exact Or.inl rfl
      | true =>
          by_cases hv : vpn va = vpn va₀
          · rw [mapping, if_pos hv]
            cases hold : obtains p access (mapping h.space.log (vpn va)) va with
            | none => exact Or.inl rfl
            | some pa => exact Or.inr (Or.inl ⟨Option.some_ne_none pa, va₀, List.mem_singleton.mpr rfl, hv.symm⟩)
          · rw [mapping, if_neg hv]
            exact Or.inl rfl

/-- An outcome that one more call overtakes was overtaken, or is overtaken now. -/
theorem Overtaken.call {x : PtOp × Bool} {before : Option Word} (ho : Overtaken since va before r)
    (hcall : Overtaken [x] va now before) : Overtaken (x :: since) va now r := by
  have hhead : ∀ y ∈ [x], y ∈ x :: since := by
    rintro y hy
    rw [List.mem_singleton.mp hy]
    exact List.mem_cons_self
  rcases ho with rfl | hun | hmap
  · rcases hcall with rfl | ⟨hr, va', hmem, hvpn⟩ | ⟨hr, va', pa, flags, hmem, hvpn⟩
    · exact Or.inl rfl
    · exact Or.inr (Or.inl ⟨hr, va', hhead _ hmem, hvpn⟩)
    · exact Or.inr (Or.inr ⟨hr, va', pa, flags, hhead _ hmem, hvpn⟩)
  · exact Overtaken.mono (Or.inr (Or.inl hun))
  · exact Overtaken.mono (Or.inr (Or.inr hmap))

theorem Explained.call (hok : AllocOk allocPage (Located I)) (hx : Explained I root since h) {op : PtOp}
    (hop : op.Permitted) {space : Space α} (hst : h.space.step allocPage root op = some space) :
    ∃ ok, space.log = (op, ok) :: h.space.log ∧
      Explained I root ((op, ok) :: since) { h with space := space } := by
  obtain ⟨ok, hlog, hcall⟩ := overtaken_call hok hx hst
  obtain ⟨space', hst', hrefines⟩ := refines_step hok hx.refines hop
  obtain rfl := Option.some.inj (hst.symm.trans hst')
  refine ⟨ok, hlog, hrefines, hx.mode, fun e he => ?_⟩
  have hafter : ({ h with space := space } : Hart α).translate e.privilege e.access e.page =
      if h.satp = 0#64 then some e.page
      else obtains e.privilege e.access (mapping space.log (vpn e.page)) e.page := by
    have hx' : Explained I root since { h with space := space, cache := [] } :=
      ⟨hrefines, hx.mode, fun _ hnil => absurd hnil List.not_mem_nil⟩
    exact hx'.translate e.privilege e.access e.page
  refine Overtaken.call (hx.cached e he) ?_
  rw [hafter, hx.translate]
  split
  · exact Or.inl rfl
  · exact hcall e.privilege e.access e.page

/-- **Step lemma.** -/
theorem Explained.step (hok : AllocOk allocPage (Located I)) (hx : Explained I root since h) {op : MmuOp}
    (hop : op.Permitted) (hst : h.step allocPage root op = some h') :
    ∃ new, h'.space.log = new ++ h.space.log ∧ Explained I root (new ++ since) h' := by
  have hnone : ∀ e ∈ ([] : List Cached), False := fun _ hnil => List.not_mem_nil hnil
  cases op with
  | call op =>
      obtain ⟨space, hspace, hh'⟩ := Option.bind_eq_some_iff.mp hst
      cases hh'
      obtain ⟨ok, hlog, hx'⟩ := hx.call hok hop hspace
      exact ⟨[(op, ok)], hlog, hx'⟩
  | enable =>
      cases hst
      exact ⟨[], rfl, hx.refines, Or.inr rfl, fun e he => (hnone e he).elim⟩
  | fence =>
      cases hst
      exact ⟨[], rfl, hx.refines, hx.mode, fun e he => (hnone e he).elim⟩
  | fill p access va =>
      cases hst
      refine ⟨[], rfl, hx.refines, hx.mode, fun e he => ?_⟩
      rcases List.mem_cons.mp he with rfl | he
      · exact Or.inl rfl
      · exact hx.cached e he
  | drop e₀ =>
      cases hst
      exact ⟨[], rfl, hx.refines, hx.mode, fun e he => hx.cached e (List.mem_of_mem_erase he)⟩

/-- **Run lemma.** -/
theorem explained_reach (hok : AllocOk allocPage (Located I)) (hx : Explained I root since h)
    (hr : Reach (Hart.step allocPage root) (fun _ op => op.Permitted) h h') :
    ∃ new, h'.space.log = new ++ h.space.log ∧ Explained I root (new ++ since) h' := by
  refine Reach.invariant (I := fun t => ∃ new, t.space.log = new ++ h.space.log ∧ Explained I root (new ++ since) t)
    ⟨[], rfl, hx⟩ ?_ hr
  rintro t op u ⟨new, hlog, ht⟩ hop hst
  obtain ⟨more, hlog', hu⟩ := ht.step hok hop hst
  refine ⟨more ++ new, ?_, ?_⟩
  · rw [hlog', hlog, List.append_assoc]
  · rw [List.append_assoc]
    exact hu

/-- What is remembered was the outcome of a walk at some moment since the cache was empty. -/
theorem remembered_reach (hempty : h.cache = [])
    (hr : Reach (Hart.step allocPage root) (fun _ op => op.Permitted) h h') : ∀ e ∈ h'.cache,
    ∃ t, Reach (Hart.step allocPage root) (fun _ op => op.Permitted) h t ∧
      Reach (Hart.step allocPage root) (fun _ op => op.Permitted) t h' ∧
      e.frame = t.translate e.privilege e.access e.page := by
  induction hr with
  | refl =>
      intro e he
      rw [hempty] at he
      cases he
  | @tail u v op hr hop hst ih =>
      -- what was remembered before is remembered from the same moment
      have hkeep : ∀ e ∈ u.cache, ∃ t, Reach (Hart.step allocPage root) (fun _ op => op.Permitted) h t ∧
          Reach (Hart.step allocPage root) (fun _ op => op.Permitted) t v ∧
          e.frame = t.translate e.privilege e.access e.page := by
        intro e he
        obtain ⟨t, ht, htu, hframe⟩ := ih e he
        exact ⟨t, ht, Reach.tail htu hop hst, hframe⟩
      intro e he
      cases op with
      | call op =>
          obtain ⟨space, _, hv⟩ := Option.bind_eq_some_iff.mp hst
          cases hv
          exact hkeep e he
      | enable =>
          cases hst
          cases he
      | fence =>
          cases hst
          cases he
      | fill p access va =>
          have hv : some ({ u with
              cache := ⟨p, access, alignDown va, u.translate p access (alignDown va)⟩ :: u.cache } : Hart α) =
              some v := hst
          obtain rfl := Option.some.inj hv
          rcases List.mem_cons.mp he with rfl | he
          · exact ⟨u, hr, Reach.single hop hst, rfl⟩
          · exact hkeep e he
      | drop e₀ =>
          have hv : some ({ u with cache := u.cache.erase e₀ } : Hart α) = some v := hst
          obtain rfl := Option.some.inj hv
          exact hkeep e (List.mem_of_mem_erase he)

/-- **Only a call makes an outcome stale.** From any state with an empty translation cache, that is after any
    `sfence_vma` or `enable_sv39`, and whatever the hart remembers and forgets afterwards: an access sees what the
    tables say now, unless its page was unmapped since (where it may still see an old address) or mapped since
    (where it may still see the fault). Old or new, what it sees is what the walk gave at some moment since then. -/
theorem stale_only_by_call (hok : AllocOk allocPage I)
    (hbound : ∀ U a, I U a → ∀ q a', allocPage a = some (q, a') → q.toNat < 2 ^ 56) {w : World α}
    (hzero : ∀ i, w.mem root i = 0#64) (hroot : Physical root) (hI : I {root} w.src)
    (hr : Reach (Hart.step allocPage root) (fun _ op => op.Permitted) ⟨⟨w, []⟩, 0#64, []⟩ h) (hempty : h.cache = [])
    (hr' : Reach (Hart.step allocPage root) (fun _ op => op.Permitted) h h') :
    ∃ since, h'.space.log = since ++ h.space.log ∧ ∀ p access va r, h'.Sees p access va r →
      (r = h'.translate p access va ∨ (r ≠ none ∧ Unmapped since va) ∨ (r = none ∧ Mapped since va)) ∧
      ∃ t, Reach (Hart.step allocPage root) (fun _ op => op.Permitted) h t ∧
        Reach (Hart.step allocPage root) (fun _ op => op.Permitted) t h' ∧ r = t.translate p access va := by
  have hroots : ∀ q ∈ ({root} : Set Word), Physical q := by
    rintro q rfl
    exact hroot
  have hok' : AllocOk allocPage (Located I) := hok.bounded hbound
  have hstart : Explained I root [] (⟨⟨w, []⟩, 0#64, []⟩ : Hart α) :=
    ⟨refines_init hzero ⟨hI, hroots⟩, Or.inl rfl, fun _ hnil => absurd hnil List.not_mem_nil⟩
  obtain ⟨before, _, hx⟩ := explained_reach hok' hstart hr
  -- with nothing remembered, nothing needs an explanation
  have hx₀ : Explained I root [] h := ⟨hx.refines, hx.mode, fun e he => by rw [hempty] at he; cases he⟩
  obtain ⟨since, hlog, hx'⟩ := explained_reach hok' hx₀ hr'
  rw [List.append_nil] at hx'
  refine ⟨since, hlog, fun p access va r hs => ⟨hx'.sees hs, ?_⟩⟩
  rcases hs with rfl | ⟨e, he, rfl, rfl, hpage, rfl⟩
  · exact ⟨h', hr', Reach.refl, rfl⟩
  · obtain ⟨t, ht, hth', hframe⟩ := remembered_reach hempty hr' e he
    obtain ⟨_, _, hxt⟩ := explained_reach hok' hx₀ ht
    refine ⟨t, ht, hth', ?_⟩
    rw [hframe, hpage, ← hxt.translate_page]

/-- A page is mapped, read and unmapped: the hart may still read it. -/
theorem stale_only_by_call_test : ∃ h : Hart (List Word),
    h.Sees ⟨false, false, false⟩ .load 0x1234#64 (some 0x5234#64) ∧
    h.translate ⟨false, false, false⟩ .load 0x1234#64 = none ∧ Unmapped h.space.log 0x1234#64 ∧
    ∃ t : Hart (List Word), Reach (Hart.step playback 0x80000000#64) (fun _ op => op.Permitted) t h ∧
      t.translate ⟨false, false, false⟩ .load 0x1234#64 = some 0x5234#64 := by
  let p : Privilege := ⟨false, false, false⟩
  let w : World (List Word) := ⟨fun _ _ => 0#64, [0x80001000#64, 0x80002000#64]⟩
  let paged : Hart (List Word) := enableSv39 ⟨⟨w, []⟩, 0#64, []⟩ 0x80000000#64
  let ops : List MmuOp :=
    [.call (.map 0x1000#64 0x5000#64 (pteR ||| pteA)), .fill p .load 0x1234#64, .call (.unmap 0x1000#64)]
  have hrun : (run (Hart.step playback 0x80000000#64) paged ops).map (fun h : Hart (List Word) =>
      (h.cache, h.translate p .load 0x1234#64)) = some ([⟨p, .load, 0x1000#64, some 0x5000#64⟩], none) := by
    decide +kernel
  obtain ⟨h, hh, hfacts⟩ := Option.map_eq_some_iff.mp hrun
  obtain ⟨hcache, hnow⟩ := Prod.mk.inj hfacts
  have hperm : Always (Hart.step playback 0x80000000#64) (fun _ op => op.Permitted) paged ops :=
    ⟨⟨by decide, by decide⟩, fun _ _ => ⟨trivial, fun _ _ => ⟨trivial, fun _ _ => trivial⟩⟩⟩
  have hplay : PlayablePages {0x80000000#64} [0x80001000#64, 0x80002000#64] := by
    refine ⟨playable_two, fun q hq => ?_⟩
    rcases List.mem_pair.mp hq with rfl | rfl <;> decide
  have hstart : Reach (Hart.step playback 0x80000000#64) (fun _ op => op.Permitted) ⟨⟨w, []⟩, 0#64, []⟩ paged :=
    Reach.single (show MmuOp.Permitted .enable from trivial) rfl
  obtain ⟨since, hlog, hsees⟩ := stale_only_by_call playback_pages_ok playback_bounded (fun _ => rfl)
    ⟨by decide, by decide⟩ hplay hstart rfl (Reach.of_run ops hperm hh)
  have hold : h.Sees p .load 0x1234#64 (some 0x5234#64) :=
    Or.inr ⟨⟨p, .load, 0x1000#64, some 0x5000#64⟩, by rw [hcache]; exact List.mem_singleton.mpr rfl, rfl, rfl,
      by decide, by decide⟩
  have hsince : since = h.space.log := by
    rw [hlog]
    exact (List.append_nil since).symm
  obtain ⟨hstale, t, _, hth, hthen⟩ := hsees p .load 0x1234#64 _ hold
  refine ⟨h, hold, hnow, ?_, t, hth, hthen.symm⟩
  rcases hstale with hc | ⟨_, hun⟩ | ⟨hc, _⟩
  · rw [hnow] at hc
    cases hc
  · rw [← hsince]
    exact hun
  · cases hc

end Arch
end RiscCore
