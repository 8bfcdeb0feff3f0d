import Flexus.CMPCache.Controller
import Flexus.CMPCache.Passage

/-!
# Requests that stall

A request that cannot be served yet (`doRequest` of
`components/CMPCache/NonInclusiveMESIPolicy.cpp`) stalls: it goes to sleep in the miss address file,
and it is run again later. The records of the blocks are then to be what they were before. They are,
but for two cases: the modified copy of the bank is given up for a reply that is not sent then, and
a clean block makes room for the block of a request that is not served then.
-/

namespace Flexus

namespace CMPCache

open MemoryMessageType

variable {δ γ : Type}

namespace Policy

variable (cfg : Config δ γ)

/-- **The coherence state is the same**: of each block the recorded sharers, and the state in which
the bank has it. -/
def SameCoherence (s s' : Policy δ γ) : Prop :=
  ∀ b, IsBlock cfg b →
    (s'.recorded cfg b).theSharers = (s.recorded cfg b).theSharers ∧
      s'.cached cfg b = s.cached cfg b

/-- A read gets the modified copy of the bank, which nobody else has. -/
def GivesAway (s : Policy δ γ) (type : MemoryMessageType) (a : ℕ) : Prop :=
  type = readReq ∧ (s.recorded cfg a).theSharers = ∅ ∧ s.cached cfg a = .modified

/-- **A request comes as far as being served**, although another one of the block waits for its
acknowledgement: no invalidates of the block are outstanding, there is room in the directory, and
the block is not being written back. -/
structure ComesThrough (s : Policy δ γ) (type : MemoryMessageType) (a : ℕ) : Prop where
  overlaps : s.overlaps type a = true
  settled : s.settled a
  entry : cfg.directory.lookup s.theDirectory a = none →
    s.allocateEntry cfg a (s.recorded cfg a) ≠ none
  resident : ∀ e, cfg.array.state s.theCache a = .invalid →
    s.theCacheEvictBuffer.find a = some e → e.pending = false

variable {cfg} {s s' t u : Policy δ γ} {p p' : Process}
  {hasMaf mafWaiting found : Bool} {a : ℕ} {d : SimpleDirectoryState} {c : CacheState}
  {st : MAFState} {type : MemoryMessageType}
  {validDir : δ → Prop} {validArray : γ → Prop}

theorem sameCoherence_stallIn (h : s.stallIn p hasMaf a st = .ok (s', p')) :
    SameCoherence cfg s s' := by
  obtain ⟨hs, -⟩ := stallIn_spec h
  rw [hs]
  exact fun b _ => ⟨rfl, rfl⟩

theorem SameCoherence.trans (h : SameCoherence cfg s t) (h' : SameCoherence cfg t u) :
    SameCoherence cfg s u :=
  fun b hb => ⟨(h' b hb).1.trans (h b hb).1, (h' b hb).2.trans (h b hb).2⟩

theorem HasEntry.sameCoherence (hdir : DirectoryLaws cfg.directory (IsBlock cfg) validDir)
    (hs : s.InOrder cfg validDir validArray) (ha : IsBlock cfg a)
    (h : HasEntry cfg s type a t) : SameCoherence cfg s t := by
  obtain ⟨⟨hcache, hbuffer⟩, hrecorded⟩ := h.spec hdir hs ha
  refine fun b hb => ⟨hrecorded b hb, ?_⟩
  rw [cached, cached, hcache, hbuffer]

theorem accept_ne_stall {action : ProcessAction} (h : s.accept p hasMaf a action = .ok (s', p'))
    (hstall : p'.action = .stall) : action = .stall := by
  rw [accept] at h
  split at h
  · cases h
  · cases h
    exact hstall

theorem acceptKeeping_ne_stall {action : ProcessAction}
    (h : s.acceptKeeping p hasMaf a action = .ok (s', p')) (hstall : p'.action = .stall) :
    action = .stall := by
  rw [acceptKeeping] at h
  split at h
  · cases h
  · cases h
    exact hstall

/-- A request that would go to memory stalls for another one of its block. -/
theorem serveFromMemory_stalls (h : s.serveFromMemory p hasMaf mafWaiting a = .ok (s', p'))
    (hstall : p'.action = .stall) :
    mafWaiting = true ∧ s.stallIn p hasMaf a .waitRequest = .ok (s', p') := by
  simp only [serveFromMemory] at h
  split at h
  · rename_i hw
    exact ⟨hw, h⟩
  · split at h
    · cases accept_ne_stall h hstall
    · cases accept_ne_stall h hstall
    · cases acceptKeeping_ne_stall h hstall
    · cases acceptKeeping_ne_stall h hstall
    · cases h

/-- **A read stalls** for another one of its block. The bank has given up its modified copy then if
that was to be the answer. -/
theorem serveRead_stalls (h : s.serveRead cfg p hasMaf mafWaiting a d c = .ok (s', p'))
    (hstall : p'.action = .stall) : mafWaiting = true ∧
      (s.giveAway cfg a (d.noSharers && c != .shared && !(p.transport.type == fetchReq))
        c).stallIn p hasMaf a .waitRequest = .ok (s', p') := by
  simp only [serveRead] at h
  split at h
  · rename_i hc
    have hid : s.giveAway cfg a (d.noSharers && c != .shared && !(p.transport.type == fetchReq))
        c = s := by
      rw [giveAway, if_neg]
      rcases hc with rfl | ⟨-, rfl⟩ <;> simp
    split at h
    · rename_i hw
      rw [hid]
      exact ⟨(Bool.and_eq_true_iff.mp hw).2, h⟩
    · cases acceptKeeping_ne_stall h hstall
  · split at h
    · rename_i hw
      exact ⟨(Bool.and_eq_true_iff.mp hw).2, h⟩
    · split at h
      · cases h
      · cases accept_ne_stall h hstall

theorem serveWrite_ne_stall (h : s.serveWrite cfg p hasMaf a d c = .ok (s', p')) :
    p'.action ≠ .stall := by
  intro hstall
  simp only [serveWrite] at h
  split at h
  · split at h
    · cases h
    · cases accept_ne_stall h hstall
  · cases accept_ne_stall (Lib.of_ite_error_eq_ok h).2 hstall

theorem serveUpgrade_ne_stall (h : s.serveUpgrade cfg p hasMaf a d c = .ok (s', p')) :
    p'.action ≠ .stall := by
  intro hstall
  simp only [serveUpgrade] at h
  split at h
  · cases accept_ne_stall (Lib.of_ite_error_eq_ok h).2 hstall
  · cases accept_ne_stall h hstall

/-- A race does not make a read of anything, nor anything of a read. -/
theorem raced_eq_self (h : (raced p d).transport.type ≠ writeReq) : raced p d = p := by
  rw [raced] at h ⊢
  split
  · rename_i hrace
    rw [if_pos hrace] at h
    exact absurd rfl h
  · rfl

theorem giveAway_spec (harr : ArrayLaws cfg.array validArray) (hs : validArray s.theCache)
    (ha : IsBlock cfg a) (hstate : cfg.array.state s.theCache a = .modified)
    (hfind : s.theCacheEvictBuffer.find a = none) {sole : Bool} (hsole : sole = true) :
    (s.giveAway cfg a sole .modified).cached cfg a = .invalid ∧
      ∀ b, IsBlock cfg b → b ≠ a →
        (s.giveAway cfg a sole .modified).cached cfg b = s.cached cfg b := by
  subst hsole
  have hvalid : cfg.array.state s.theCache a ≠ .invalid := by
    rw [hstate]
    exact nofun
  have hnew : ∀ {b}, IsBlock cfg b → cfg.array.state
      (cfg.array.invalidateBlock (cfg.array.setState s.theCache a .invalid) a) b =
        if b = a then .invalid else cfg.array.state s.theCache b := fun hb =>
    harr.state_invalidateBlock.trans (harr.state_setState hs ha hb hvalid)
  have hgive : s.giveAway cfg a true .modified = { s with
      theCache := cfg.array.invalidateBlock (cfg.array.setState s.theCache a .invalid) a } := rfl
  rw [hgive]
  refine ⟨?_, fun b hb hne => ?_⟩
  · rw [cached, hnew ha, if_pos rfl, if_pos rfl, hfind]
    rfl
  · rw [cached, hnew hb, if_neg hne, cached]

/-- **A request stalls when it is served**: another one of the block waits for its acknowledgement.
Unless the modified copy was given away, nothing has changed. -/
theorem serve_stalls (hdir : DirectoryLaws cfg.directory (IsBlock cfg) validDir)
    (harr : ArrayLaws cfg.array validArray) (hs : validArray s.theCache) (ha : IsBlock cfg a)
    (hd : p.transport.type = nonAllocatingStoreReq ∨
      cfg.directory.lookup s.theDirectory a = some d)
    (hfind : cfg.array.state s.theCache a ≠ .invalid → s.theCacheEvictBuffer.find a = none)
    (h : s.serve cfg p hasMaf mafWaiting found a = .ok (s', p')) (hstall : p'.action = .stall) :
    mafWaiting = true ∧
      (¬ (p.transport.type = readReq ∧ d.theSharers = ∅ ∧
          cfg.array.state s.theCache a = .modified) → SameCoherence cfg s s') ∧
      (p.transport.type = readReq ∧ d.theSharers = ∅ ∧
          cfg.array.state s.theCache a = .modified → s'.cached cfg a = .invalid) ∧
      ∀ b, IsBlock cfg b → b ≠ a → s'.cached cfg b = s.cached cfg b := by
  simp only [serve] at h
  split at h
  · split at h
    · cases accept_ne_stall h hstall
    · cases accept_ne_stall h hstall
  · generalize hprotect : (if p.transport.type = nonAllocatingStoreReq then s else _) = t at h
    obtain ⟨hcache, hbuffer, hsame, hlookup⟩ : t.theCache = s.theCache ∧
        t.theCacheEvictBuffer = s.theCacheEvictBuffer ∧ SameCoherence cfg s t ∧
        (p.transport.type = nonAllocatingStoreReq ∨
          cfg.directory.lookup t.theDirectory a = some d) := by
      rw [← hprotect]
      split
      · rename_i hnas
        exact ⟨rfl, rfl, fun b _ => ⟨rfl, rfl⟩, .inl hnas⟩
      · have hprotected : ∀ {b}, IsBlock cfg b → cfg.directory.lookup
            (cfg.directory.setProtected s.theDirectory a true) b =
              cfg.directory.lookup s.theDirectory b := fun hb => hdir.lookup_setProtected ha hb
        refine ⟨rfl, rfl, fun b hb => ⟨?_, rfl⟩, hd.imp_right (hprotected ha).trans⟩
        rw [recorded, recorded, hprotected hb]
    have hgetD : p.transport.type = readReq →
        (cfg.directory.lookup t.theDirectory a).getD (.reset cfg.theCores) = d := by
      intro hread
      have hnas : p.transport.type ≠ nonAllocatingStoreReq := by
        rw [hread]
        decide
      rw [hlookup.resolve_left hnas]
      rfl
    generalize (cfg.directory.lookup t.theDirectory a).getD (.reset cfg.theCores) = d' at h hgetD
    -- either nothing is given away, or the modified copy
    obtain ⟨hw, hcase⟩ : mafWaiting = true ∧
        (¬ (p.transport.type = readReq ∧ d.theSharers = ∅ ∧
            cfg.array.state s.theCache a = .modified) ∧
          t.stallIn (raced p d') hasMaf a .waitRequest = .ok (s', p') ∨
        cfg.array.state s.theCache a = .modified ∧
          (p.transport.type = readReq ∧ d.theSharers = ∅) ∧
          (t.giveAway cfg a true .modified).stallIn (raced p d') hasMaf a .waitRequest =
            .ok (s', p')) := by
      split at h
      · rename_i hmemory
        obtain ⟨hw, h⟩ := serveFromMemory_stalls h hstall
        refine ⟨hw, .inl ⟨fun hc => ?_, h⟩⟩
        rw [hmemory.2] at hc
        cases hc.2.2
      · split at h
        · rename_i hread
          have hraced : raced p d' = p := raced_eq_self (by rw [hread]; decide)
          rw [hraced] at hread h ⊢
          obtain ⟨hw, h⟩ := serveRead_stalls h hstall
          refine ⟨hw, ?_⟩
          rw [hgetD hread, hread] at h
          by_cases hgive : d.theSharers = ∅ ∧ cfg.array.state s.theCache a = .modified
          · have hnone : d.noSharers = true := decide_eq_true hgive.1
            rw [hgive.2, hnone] at h
            exact .inr ⟨hgive.2, ⟨hread, hgive.1⟩, h⟩
          · refine .inl ⟨fun hc => hgive hc.2, ?_⟩
            rw [giveAway, if_neg] at h
            · exact h
            · intro hc
              rw [Bool.and_eq_true, Bool.and_eq_true, Bool.and_eq_true, beq_iff_eq] at hc
              exact hgive ⟨of_decide_eq_true hc.1.1.1, hc.2⟩
        · rename_i hfetch
          have hraced : raced p d' = p := raced_eq_self (by rw [hfetch]; decide)
          rw [hraced] at hfetch h ⊢
          obtain ⟨hw, h⟩ := serveRead_stalls h hstall
          refine ⟨hw, .inl ⟨fun hc => (by cases hfetch.symm.trans hc.1), ?_⟩⟩
          rw [giveAway, if_neg] at h
          · exact h
          · rw [hfetch]
            simp
        · exact absurd hstall (serveWrite_ne_stall h)
        · exact absurd hstall (serveUpgrade_ne_stall h)
        · rw [serveNAS] at h
          split at h
          · cases accept_ne_stall h hstall
          · cases accept_ne_stall h hstall
        · cases h
    refine ⟨hw, ?_⟩
    rcases hcase with ⟨hkept, h⟩ | ⟨hstate, hgiven, h⟩
    · have hall := hsame.trans (sameCoherence_stallIn h)
      exact ⟨fun _ => hall, fun hc => absurd hc hkept, fun b hb _ => (hall b hb).2⟩
    · obtain ⟨hgone, hothers⟩ := giveAway_spec harr (hcache ▸ hs) ha (hcache ▸ hstate)
        (s := t) (by rw [hbuffer]; exact hfind (by rw [hstate]; decide)) rfl
      have hasleep : SameCoherence cfg (t.giveAway cfg a true .modified) s' :=
        sameCoherence_stallIn h
      refine ⟨fun hc => absurd ⟨hgiven.1, hgiven.2, hstate⟩ hc, fun _ => ?_, fun b hb hne => ?_⟩
      · rw [(hasleep a ha).2, hgone]
      · rw [(hasleep b hb).2, hothers b hb hne, (hsame b hb).2]

theorem HasEntry.hasRoom (h : HasEntry cfg s type a t) (htype : type ≠ nonAllocatingStoreReq)
    (hnone : cfg.directory.lookup s.theDirectory a = Option.none) :
    s.allocateEntry cfg a (s.recorded cfg a) ≠ Option.none := by
  cases h with
  | found h =>
    rw [hnone] at h
    cases h
  | moved _ he ht _ =>
    rw [recorded, hnone, he]
    simp only [ht]
    exact Option.some_ne_none _
  | fresh _ he ht =>
    rw [recorded, hnone, he]
    simp only [ht]
    exact Option.some_ne_none _
  | none _ _ hnas => exact absurd hnas htype

theorem Recalled.resident (h : Recalled cfg s a t) {e : EvictEntry}
    (hstate : cfg.array.state s.theCache a = .invalid)
    (he : s.theCacheEvictBuffer.find a = some e) : e.pending = false := by
  cases h with
  | here h => cases (h hstate).symm.trans he
  | back _ he' hpending _ =>
    obtain rfl := Option.some.inj (he'.symm.trans he)
    exact hpending

/-- Whoever overlaps with another request of the block does not write. -/
theorem not_nonAllocating_of_overlaps (h : s.overlaps type a = true) :
    type ≠ nonAllocatingStoreReq := by
  rintro rfl
  rw [overlaps] at h
  split at h
  · cases h
  · rw [Bool.and_eq_true, Bool.not_eq_true'] at h
    exact absurd h.2 (by simp [conflicts])

/-- **A stalled request changes no coherence state**, unless it came as far as being served and
the block took the place of a clean one that was lost, or its modified copy was given away. -/
theorem doRequest_stall_iff (hdir : DirectoryLaws cfg.directory (IsBlock cfg) validDir)
    (harr : ArrayLaws cfg.array validArray) (hs : s.InOrder cfg validDir validArray)
    (htype : p.transport.type ∈ [readReq, fetchReq, writeReq, upgradeReq, nonAllocatingStoreReq])
    (h : s.doRequest cfg p hasMaf = .ok (s', p')) (hstall : p'.action = .stall) :
    SameCoherence cfg s s' ↔
      ¬ (ComesThrough cfg s p.transport.type (cfg.array.blockAddress p.transport.address) ∧
        (DropsVictim cfg s (cfg.array.blockAddress p.transport.address) ∨
          GivesAway cfg s p.transport.type (cfg.array.blockAddress p.transport.address))) := by
  have ha : IsBlock cfg (cfg.array.blockAddress p.transport.address) :=
    cfg.array.blockAddress_idem _
  have hevict : p.transport.type.isEvictType = false := by
    simp only [List.mem_cons, List.not_mem_nil, or_false] at htype
    rcases htype with h | h | h | h | h <;> rw [h] <;> rfl
  have hpasses := doRequest_passes h hevict
  generalize cfg.array.blockAddress p.transport.address = a at ha hpasses ⊢
  cases hpasses with
  | waits hwait h =>
    refine iff_of_true (sameCoherence_stallIn h) fun hc => ?_
    rcases hwait with hfree | hsent | ⟨hnone, hfull⟩
    · rw [hc.1.overlaps] at hfree
      exact absurd hfree nofun
    · exact hsent hc.1.settled
    · exact hc.1.entry hnone hfull
  | redundant _ hp => exact absurd hstall hp.1
  | writtenBack ht hstate he hpending h =>
    obtain ⟨⟨hcache, hbuffer⟩, -⟩ := ht.spec hdir hs ha
    refine iff_of_true ((ht.sameCoherence hdir hs ha).trans (sameCoherence_stallIn h))
      fun hc => ?_
    rw [hcache] at hstate
    rw [hbuffer] at he
    exact absurd ((hc.1.resident _ hstate he).symm.trans hpending) nofun
  | serves ht hu hsettled h =>
    rename_i t u found
    have hsame := ht.sameCoherence hdir hs ha
    obtain ⟨⟨hcache, hbuffer⟩, -⟩ := ht.spec hdir hs ha
    have hapart : ∀ b, IsBlock cfg b → cfg.array.state t.theCache b ≠ .invalid →
        t.theCacheEvictBuffer.find b = none := by
      rw [hcache, hbuffer]
      exact hs.cacheApart
    obtain ⟨hvalid, hstate, hgone, hkept, hlost⟩ :=
      hu.spec harr (hcache ▸ hs.array) hapart ha
    have hentry : p.transport.type = nonAllocatingStoreReq ∨
        cfg.directory.lookup u.theDirectory a = some (s.recorded cfg a) := by
      rw [hu.directory.1]
      exact ht.lookup hdir hs.directory ha
    obtain ⟨hw, hkeeps, hgives, hothers⟩ :=
      serve_stalls hdir harr hvalid ha hentry hgone h hstall
    have hnas := not_nonAllocating_of_overlaps hw
    have hthrough : ComesThrough cfg s p.transport.type a :=
      ⟨hw, hsettled, ht.hasRoom hnas, fun e hinvalid he =>
        hu.resident (by rw [hcache]; exact hinvalid) (by rw [hbuffer]; exact he)⟩
    have hdrops : DropsVictim cfg t a ↔ DropsVictim cfg s a := by
      rw [DropsVictim, DropsVictim, hcache, hbuffer]
    have hgiven : p.transport.type = readReq ∧ (s.recorded cfg a).theSharers = ∅ ∧
        cfg.array.state u.theCache a = .modified ↔ GivesAway cfg s p.transport.type a := by
      rw [GivesAway, hstate, (hsame a ha).2]
    constructor
    · rintro hall ⟨-, hdrop | hgive⟩
      · -- the lost block is not the one of the request
        obtain ⟨b, hb, hne, hdiffers⟩ := hlost (hdrops.mpr hdrop)
        refine hdiffers ?_
        rw [← hothers b hb hne, (hall b hb).2, (hsame b hb).2]
      · have hnothing := hgives (hgiven.mpr hgive)
        rw [(hall a ha).2, hgive.2.2] at hnothing
        exact absurd hnothing nofun
    · intro hc
      have hneither := fun hor => hc ⟨hthrough, hor⟩
      have hrecalled : SameCoherence cfg t u := by
        refine fun b hb => ⟨?_, hkept (fun hd => hneither (.inl (hdrops.mp hd))) b hb⟩
        rw [recorded, recorded, hu.directory.1, hu.directory.2]
      exact (hsame.trans hrecalled).trans
        (hkeeps fun hg => hneither (.inr (hgiven.mp hg)))

end Policy

/-! ### A modified copy that is lost -/

/-- A cache gets a block from memory; while another one reads it from there, the first one writes
its copy back. The bank has it then, modified, and nobody else. -/
def crossedEvict : List Controller.Event :=
  readMiss 64 0 ++
    [.request (message readReq 64 1), .runMAF, .runDirTag,
      .request (message evictDirty 64 0), .runMAF, .runDirTag]

set_option maxRecDepth 8000 in
/-- **The bank loses its modified copy** to a third read, which stalls since the second one is not
acknowledged. -/
theorem not_sameCoherence_of_crossedEvict : ¬ ∀ c : Controller (List DirEntry) (ℕ → ArraySet),
    (Controller.machine (smallBank 3 1 true)).Reachable c → ∀ s' p',
      c.policy.doRequest (smallBank 3 1 true)
        { type := .request, transport := message readReq 64 2 } false = .ok (s', p') →
      p'.action = .stall → Policy.SameCoherence (smallBank 3 1 true) c.policy s' := by
  intro h
  obtain ⟨c, hrun, s', p', hreq, hstall, hbefore, hafter⟩ : ∃ c,
      (Controller.machine (smallBank 3 1 true)).run crossedEvict = .ok c ∧ ∃ s' p',
        c.policy.doRequest (smallBank 3 1 true)
          { type := .request, transport := message readReq 64 2 } false = .ok (s', p') ∧
        p'.action = .stall ∧ c.policy.cached (smallBank 3 1 true) 64 = .modified ∧
        s'.cached (smallBank 3 1 true) 64 = .invalid := ⟨_, rfl, _, _, rfl, rfl, rfl, rfl⟩
  have hsame := (h c (Lib.Machine.reachable_of_run hrun) s' p' hreq hstall 64 rfl).2
  rw [hbefore, hafter] at hsame
  exact absurd hsame nofun

/-- The geometry of the array of a small bank with one way. -/
def oneWay : Geometry := ⟨1, 1, 64, 1, 64, 1, 64⟩

/-- A bank with the only copy of a block, a modified one, while a read of it is not acknowledged. -/
def readUnderWay : Policy (List DirEntry) (ℕ → ArraySet) :=
  { Policy.init (smallBank 3 1 true) with
    theDirectory := [⟨64, false, ⟨3, ∅⟩⟩]
    theCache := Function.update (stdArray oneWay).init 0 ⟨[⟨64, .modified⟩], [0]⟩
    theMAF := MissAddressFile.init.insert (message readReq 64 1) 64 .waitAck }

theorem inOrder_readUnderWay : readUnderWay.InOrder (smallBank 3 1 true) (fun _ => True)
    (ArraySets.Valid oneWay) := by
  have hinit : ArraySets.Valid oneWay (stdArray oneWay).init := (stdArray_laws oneWay).init
  refine ⟨trivial, ⟨fun i => ?_, fun i x hx hvalid => ?_⟩, fun _ _ _ => rfl, fun _ _ _ => rfl⟩
  · by_cases hi : i = 0
    · subst hi
      intro j k x y hj hk _ _ _
      have hj := (List.getElem?_eq_some_iff.mp hj).1
      have hk := (List.getElem?_eq_some_iff.mp hk).1
      exact (Nat.lt_one_iff.mp hj).trans (Nat.lt_one_iff.mp hk).symm
    · simp only [readUnderWay, Function.update_of_ne hi]
      exact hinit.ways i
  · by_cases hi : i = 0
    · subst hi
      obtain rfl := List.mem_singleton.mp hx
      exact ⟨rfl, rfl⟩
    · simp only [readUnderWay, Function.update_of_ne hi] at hx
      exact hinit.placed i x hx hvalid

/-- A second read stalls, and the copy is lost. -/
theorem readUnderWay_stalls : ∃ s' p', readUnderWay.doRequest (smallBank 3 1 true)
      { type := .request, transport := message readReq 64 2 } false = .ok (s', p') ∧
    ¬ Policy.SameCoherence (smallBank 3 1 true) readUnderWay s' := by
  obtain ⟨s', p', h, hstall⟩ : ∃ s' p', readUnderWay.doRequest (smallBank 3 1 true)
      { type := .request, transport := message readReq 64 2 } false = .ok (s', p') ∧
      p'.action = .stall := ⟨_, _, rfl, rfl⟩
  have hthrough : Policy.ComesThrough (smallBank 3 1 true) readUnderWay readReq 64 := by
    refine ⟨rfl, fun e he => absurd he nofun, fun hnone => ?_, fun e _ he => ?_⟩
    · exact absurd hnone nofun
    · exact absurd he nofun
  have hgives : Policy.GivesAway (smallBank 3 1 true) readUnderWay readReq 64 := ⟨rfl, rfl, rfl⟩
  have hlaws : ArrayLaws (smallBank 3 1 true).array (ArraySets.Valid oneWay) :=
    stdArray_laws oneWay
  have hiff := Policy.doRequest_stall_iff (infiniteDirectory_laws _) hlaws
    inOrder_readUnderWay (by decide) h hstall
  exact ⟨s', p', h, fun hsame => hiff.mp hsame ⟨hthrough, .inr hgives⟩⟩

end CMPCache

end Flexus
