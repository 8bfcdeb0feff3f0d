import Flexus.FastCMPCache.Requests

/-!
# The rows of the protocol

The protocol table, request by request. For a block that satisfies the invariant,
every request a private cache can make in its state finds a row that is not
poisoned; the row leads to a block that satisfies the invariant again once the
requester has done its part, and no dirty copy gets lost on the way – with one
exception: a non-allocating store to a block that the shared cache does not hold
invalidates a modified private copy and goes to memory.
-/

namespace Flexus

open Lib

namespace FastCMPCache

open MemoryMessageType FastCache CoherenceState SharingState

variable {cfg : Config} {s : System cfg} {v : Block} {i a : ℕ}

/-- The outcome of a request, as a statement about its response, the block it was
about and the messages sent to memory. -/
def Answers (i : ℕ) (m : MemoryMessage) (s : System cfg)
    (Q : MemoryMessageType → Block → List MemoryMessage → Prop)
    (q : System cfg × MemoryMessageType) : Prop :=
  ∃ ext v', Serves i (cfg.blockOf m.address) s q.1 ext ∧
    q.1.Shows (cfg.blockOf m.address) v' ∧ Q q.2 v' ext

theorem answers_of_row {m : MemoryMessage} {action : PrimaryAction} {v1 : Block}
    {resp : MemoryMessageType} {ns : CoherenceState} {S' : Finset ℕ} {success : Bool}
    {x : CoherenceState} {y : SharingState} (hs : s.Shows (cfg.blockOf m.address) v)
    (hl2 : v.l2 = x) (hc : sharingOf v.sharers.card = y)
    (hact : SingleCMPProtocol.getAction x y m.type = .ok action)
    (row : Row cfg i m action v v1 resp ns S' success)
    {Q : MemoryMessageType → Block → List MemoryMessage → Prop}
    (hQ : ∀ evs : List MemoryMessage, (∀ x ∈ evs, x.type.isEvictType = true) →
      Q resp ((v1.setL2 ns).setSharers S')
        (evs ++ if !success && action.forwardRequest then [m] else [])) :
    Ends (IndexFault cfg) (processRequest i s m) (Answers i m s Q) := by
  subst hl2 hc
  refine (processRequest_of_row hs hact row).mono ?_
  rintro q ⟨hq, evs, hevs, hsrv, hsh⟩
  exact ⟨_, _, hsrv, hsh, hq ▸ hQ evs hevs⟩

/-! ### Shared grants -/

/-- The requester is given a shared copy. -/
structure GrantsShared (cfg : Config) (i : ℕ) (v : Block) (resp : MemoryMessageType)
    (v' : Block) : Prop where
  resp_eq : resp = missReply
  ok : (v'.setL1 i shared).Ok (2 * cfg.cmpWidth)
  dirty : v.Dirty → (v'.setL1 i shared).Dirty

section Shared

variable {t : MemoryMessageType} {action : PrimaryAction} {x : CoherenceState}
  {y : SharingState}

/-- A shared grant without snooping: all copies are shared already. -/
theorem grantsShared_quiet (h : v.Ok (2 * cfg.cmpWidth)) (hs : s.Shows (cfg.blockOf a) v)
    (hi : i < 2 * cfg.cmpWidth) (ht : t = readReq ∨ t = fetchReq)
    (hall : ∀ j, v.l1 j = invalid ∨ v.l1 j = shared) (hl2 : v.l2 = x)
    (hc : sharingOf v.sharers.card = y)
    (hact : SingleCMPProtocol.getAction x y t = .ok action)
    (hsn : action.snoopType = noRequest) (hresp : action.response0 = missReply)
    (hns : IsMESI action.nextState0)
    (harr : action.allocate = true ∨ action.nextState0 = x ∨ x ≠ invalid)
    (hdirty : x = modified → action.nextState0 = modified) :
    Ends (IndexFault cfg) (processRequest i s ⟨t, a⟩)
      (Answers i ⟨t, a⟩ s fun resp v' _ => GrantsShared cfg i v resp v') := by
  have hfetch : IsFetching t := by
    rcases ht with rfl | rfl
    · exact .inl rfl
    · exact .inr (.inr rfl)
  have hmem : ∃ r, fromCache t = .ok r := by
    rcases ht with rfl | rfl <;> exact ⟨_, rfl⟩
  have hcl : classify action.forwardRequest false t = .ok () := by
    rcases ht with rfl | rfl <;> cases action.forwardRequest <;> rfl
  have row : Row cfg i ⟨t, a⟩ action v v action.response0 action.nextState0
      (insert i v.sharers) false := Row.quiet hsn (fun _ => hmem) hcl
    (fun d hd => hresp ▸ processRequestResponse_add hi hfetch hd) (hl2 ▸ harr)
  refine answers_of_row hs hl2 hc hact row fun evs _ => ⟨hresp, ?_, ?_⟩
  · have := h.grantShared hi hns
    rwa [Block.share_eq hall] at this
  · rintro (hd | hd)
    · exact absurd hd (Block.not_dirtyAbove hall)
    · exact .inr (hdirty (hl2 ▸ hd))

theorem grantsShared_return (h : v.Ok (2 * cfg.cmpWidth)) (hs : s.Shows (cfg.blockOf a) v)
    (hi : i < 2 * cfg.cmpWidth) (hx : v.l1 i = invalid) (ht : t = readReq ∨ t = fetchReq)
    (hne : v.sharers.card ≠ 0) (hl2 : v.l2 = x) (hc : sharingOf v.sharers.card = y)
    (hact : SingleCMPProtocol.getAction x y t = .ok action)
    (hsn : action.snoopType = returnReq) (h0 : action.terminalResponse0 = returnReply)
    (h1 : action.terminalResponse1 = returnReplyDirty) (hresp : action.response0 = missReply)
    (hresp' : v.DirtyAbove → action.response1 = missReply)
    (hns : IsMESI action.nextState0) (hns' : action.nextState1 = modified)
    (harr : action.allocate = true ∨ x ≠ invalid)
    (hdirty : x = modified → action.nextState0 = modified) :
    Ends (IndexFault cfg) (processRequest i s ⟨t, a⟩)
      (Answers i ⟨t, a⟩ s fun resp v' _ => GrantsShared cfg i v resp v') := by
  have hfetch : IsFetching t := by
    rcases ht with rfl | rfl
    · exact .inl rfl
    · exact .inr (.inr rfl)
  have hcl : classify false true t = .ok () := by rcases ht with rfl | rfl <;> rfl
  have hi' : i ∉ v.sharers := fun hc => (h.mem_sharers i).mp hc hx
  have hne' : v.sharers.Nonempty := Finset.card_pos.mp (Nat.pos_of_ne_zero hne)
  have hsec : isSecond action returnReplyDirty := by
    rw [isSecond, h0, h1]
    exact ⟨by decide, rfl⟩
  have hsec' : ¬isSecond action returnReply := by
    rw [isSecond, h0]
    exact fun hc => hc.1 rfl
  have hcase := fun (s : System cfg) (S : SharingVector) (hs : s.Shows (cfg.blockOf a) v)
    (hS : S.sharers = v.sharers) =>
      snoop_return (m := ⟨t, a⟩) h hs hi' hne' hS hsn h0
  by_cases hd : v.DirtyAbove
  · have row : Row cfg i ⟨t, a⟩ action v v.share missReply modified (insert i v.sharers) true :=
      Row.snooping (r := returnReplyDirty)
        (fun s S hs hS => by
          obtain ⟨l, hl, hsh, hfr, hr⟩ := hcase s S hs hS
          exact ⟨l, hl, hsh, hfr, (hr.resolve_right fun hn => hn.1 hd).2⟩)
        (by rw [if_pos hsec, hresp' hd]) (by rw [if_pos hsec, hns'])
        (by simp [hsn, isTerminal, h1]) (by simp) hcl
        (fun d hd => processRequestResponse_add hi hfetch hd)
        (harr.imp id fun hv => .inr (hl2.symm ▸ hv))
    refine answers_of_row hs hl2 hc hact row fun evs _ => ⟨rfl, h.grantShared hi (.inl rfl), ?_⟩
    exact fun _ => .inr rfl
  · have row : Row cfg i ⟨t, a⟩ action v v.share missReply action.nextState0
        (insert i v.sharers) true :=
      Row.snooping (r := returnReply)
        (fun s S hs hS => by
          obtain ⟨l, hl, hsh, hfr, hr⟩ := hcase s S hs hS
          exact ⟨l, hl, hsh, hfr, (hr.resolve_left fun hn => hd hn.1).2⟩)
        (by rw [if_neg hsec', hresp]) (by rw [if_neg hsec'])
        (by simp [hsn, isTerminal, h0]) (by simp) hcl
        (fun d hd => processRequestResponse_add hi hfetch hd)
        (harr.imp id fun hv => .inr (hl2.symm ▸ hv))
    refine answers_of_row hs hl2 hc hact row fun evs _ => ⟨rfl, h.grantShared hi hns, ?_⟩
    rintro (hd' | hd')
    · exact absurd hd' hd
    · exact .inr (hdirty (hl2 ▸ hd'))

end Shared

/-! ### Reads and fetches -/

section Sharing

variable (h : v.Ok (2 * cfg.cmpWidth))

include h

theorem sharing_cases :
    sharingOf v.sharers.card = zeroSharers ∧ (∀ j, v.l1 j = invalid) ∨
    sharingOf v.sharers.card = oneSharer ∧ v.sharers.card ≠ 0 ∨
    sharingOf v.sharers.card = manySharers ∧ v.sharers.card ≠ 0 ∧
      ∀ j, v.l1 j = invalid ∨ v.l1 j = shared := by
  rcases Nat.lt_or_ge v.sharers.card 2 with hc | hc
  · rcases Nat.lt_or_ge v.sharers.card 1 with hc' | hc'
    · have h0 : v.sharers.card = 0 := by omega
      exact .inl ⟨by rw [h0]; rfl, fun j => h.invalid_of_card h0 j⟩
    · have h1 : v.sharers.card = 1 := by omega
      exact .inr (.inl ⟨by rw [h1]; rfl, by omega⟩)
  · exact .inr (.inr ⟨sharingOf_eq_many.mpr hc, by omega, h.invalid_or_shared hc⟩)

/-- **A fetch** is always answered with a shared copy. -/
theorem fetch_spec (hs : s.Shows (cfg.blockOf a) v) (hi : i < 2 * cfg.cmpWidth)
    (hx : v.l1 i = invalid) :
    Ends (IndexFault cfg) (processRequest i s ⟨fetchReq, a⟩)
      (Answers i ⟨fetchReq, a⟩ s fun resp v' _ => GrantsShared cfg i v resp v') := by
  have ht : fetchReq = readReq ∨ fetchReq = fetchReq := .inr rfl
  have hm : IsMESI modified := .inl rfl
  have he : IsMESI exclusive := .inr (.inl rfl)
  have hsh : IsMESI shared := .inr (.inr (.inl rfl))
  have hmem := h.below
  rcases h.mesi_l2 with hl2 | hl2 | hl2 | hl2 <;>
    rcases sharing_cases h with ⟨hc, hall⟩ | ⟨hc, hne⟩ | ⟨hc, hne, hall⟩
  · exact grantsShared_quiet h hs hi ht (fun j => .inl (hall j)) hl2 hc rfl rfl rfl hm
      (.inr (.inl rfl)) fun _ => rfl
  · exact grantsShared_return h hs hi hx ht hne hl2 hc rfl rfl rfl rfl rfl (fun _ => rfl) hm rfl
      (.inr nofun) fun _ => rfl
  · exact grantsShared_quiet h hs hi ht hall hl2 hc rfl rfl rfl hm (.inr (.inl rfl)) fun _ => rfl
  · exact grantsShared_quiet h hs hi ht (fun j => .inl (hall j)) hl2 hc rfl rfl rfl he
      (.inr (.inl rfl)) nofun
  · exact grantsShared_return h hs hi hx ht hne hl2 hc rfl rfl rfl rfl rfl (fun _ => rfl) he rfl
      (.inr nofun) nofun
  · exact grantsShared_quiet h hs hi ht hall hl2 hc rfl rfl rfl he (.inr (.inl rfl)) nofun
  · exact grantsShared_quiet h hs hi ht (fun j => .inl (hall j)) hl2 hc rfl rfl rfl hsh
      (.inr (.inl rfl)) nofun
  · exact grantsShared_quiet h hs hi ht (hmem (.inr hl2)) hl2 hc rfl rfl rfl hsh
      (.inr (.inl rfl)) nofun
  · exact grantsShared_quiet h hs hi ht hall hl2 hc rfl rfl rfl hsh (.inr (.inl rfl)) nofun
  · exact grantsShared_quiet h hs hi ht (fun j => .inl (hall j)) hl2 hc rfl rfl rfl hsh
      (.inl rfl) nofun
  · exact grantsShared_return h hs hi hx ht hne hl2 hc rfl rfl rfl rfl rfl (fun _ => rfl) hsh rfl
      (.inl rfl) nofun
  · exact grantsShared_return h hs hi hx ht hne hl2 hc rfl rfl rfl rfl rfl
      (fun hd => absurd hd (Block.not_dirtyAbove hall)) hsh rfl (.inl rfl) nofun

end Sharing

/-! ### Sole grants -/

/-- The replies that bring a block. -/
def IsFill (resp : MemoryMessageType) : Prop :=
  resp = missReply ∨ resp = missReplyWritable ∨ resp = missReplyDirty

theorem processRequestResponse_first {d : InfiniteDirectory} {b : ℕ} {t resp : MemoryMessageType}
    (hi : i < 2 * cfg.cmpWidth) (ht : IsFetching t) (hresp : IsFill resp)
    (hr : d.Records b ∅) :
    Ends (IndexFault cfg) (d.processRequestResponse i t resp b) fun d' =>
      d'.Records b {i} ∧ ∀ b', b' ≠ b → d' b' = d b' := by
  rcases hresp with rfl | hresp
  · exact processRequestResponse_add hi ht hr
  · exact processRequestResponse_addExclusive hi ht hresp hr

theorem sharers_of_invalid (h : v.Ok (2 * cfg.cmpWidth)) (hall : ∀ j, v.l1 j = invalid) :
    v.sharers = ∅ :=
  Finset.eq_empty_of_forall_notMem fun j hj => (h.mem_sharers j).mp hj (hall j)

theorem keepOnly_sharers_of_invalid (h : v.Ok (2 * cfg.cmpWidth)) (hx : v.l1 i = invalid) :
    (v.keepOnly i).sharers = ∅ := by
  refine Finset.eq_empty_of_forall_notMem fun j hj => ?_
  obtain ⟨hjs, rfl⟩ := Finset.mem_filter.mp hj
  exact (h.mem_sharers j).mp hjs hx

theorem keepOnly_l1_of_ne (v : Block) {j : ℕ} (hj : j ≠ i) : (v.keepOnly i).l1 j = invalid :=
  if_neg hj

section Sole

variable {t : MemoryMessageType} {action : PrimaryAction} {x new : CoherenceState}
  {y : SharingState}

variable (new) in
theorem grantsSole_quiet (h : v.Ok (2 * cfg.cmpWidth)) (hs : s.Shows (cfg.blockOf a) v)
    (hi : i < 2 * cfg.cmpWidth) (heven : i % 2 = 0) (ht : t = readReq ∨ t = writeReq)
    (hall : ∀ j, v.l1 j = invalid) (hnew : new = modified ∨ new = exclusive)
    (hl2 : v.l2 = x) (hc : sharingOf v.sharers.card = y)
    (hact : SingleCMPProtocol.getAction x y t = .ok action)
    (hsn : action.snoopType = noRequest) (hresp : IsFill action.response0)
    (hns : action.nextState0 = invalid ∨ action.nextState0 = exclusive)
    (harr : action.allocate = true ∨ action.nextState0 = x ∨ x ≠ invalid) :
    Ends (IndexFault cfg) (processRequest i s ⟨t, a⟩)
      (Answers i ⟨t, a⟩ s fun resp v' _ => resp = action.response0 ∧
        (v'.setL1 i new).Ok (2 * cfg.cmpWidth)) := by
  have hfetch : IsFetching t := by
    rcases ht with rfl | rfl
    · exact .inl rfl
    · exact .inr (.inl rfl)
  have hmem : ∃ r, fromCache t = .ok r := by
    rcases ht with rfl | rfl <;> exact ⟨_, rfl⟩
  have hcl : classify action.forwardRequest false t = .ok () := by
    rcases ht with rfl | rfl <;> cases action.forwardRequest <;> rfl
  have row : Row cfg i ⟨t, a⟩ action v v action.response0 action.nextState0 {i} false :=
    Row.quiet hsn (fun _ => hmem) hcl
    (fun d hd => processRequestResponse_first hi hfetch hresp (sharers_of_invalid h hall ▸ hd))
    (hl2 ▸ harr)
  refine answers_of_row hs hl2 hc hact row fun evs _ => ⟨rfl, ?_⟩
  refine Block.Ok.grantSole (fun j _ => hall j) hi ?_ ?_ ?_ ?_ (by omega)
  · exact hnew.imp id .inl
  · rcases hnew with rfl | rfl <;> nofun
  · rcases hns with hn | hn <;> rw [hn]
    · exact .inr (.inr (.inr rfl))
    · exact .inr (.inl rfl)
  · rcases hns with hn | hn <;> rw [hn] <;> rintro (hc | hc) <;> cases hc

theorem grantsSole_invalidate (h : v.Ok (2 * cfg.cmpWidth)) (hs : s.Shows (cfg.blockOf a) v)
    (hi : i < 2 * cfg.cmpWidth) (heven : i % 2 = 0) (hx : v.l1 i = invalid)
    (hne : v.sharers.card ≠ 0) (hl2 : v.l2 = x) (hc : sharingOf v.sharers.card = y)
    (hact : SingleCMPProtocol.getAction x y writeReq = .ok action)
    (hmulti : y = manySharers → action.multicast = true)
    (hsn : action.snoopType = invalidate) (h0 : action.terminalResponse0 = invalidateAck)
    (h1 : action.terminalResponse1 = invUpdateAck) (hresp : IsFill action.response0)
    (hresp' : v.DirtyAbove → IsFill action.response1) (hns : action.nextState0 = invalid)
    (hns' : action.nextState1 = invalid) :
    Ends (IndexFault cfg) (processRequest i s ⟨writeReq, a⟩)
      (Answers i ⟨writeReq, a⟩ s fun _ v' _ => (v'.setL1 i modified).Ok (2 * cfg.cmpWidth)) := by
  have hfetch : IsFetching writeReq := .inr (.inl rfl)
  have hi' : i ∉ v.sharers := fun hc => (h.mem_sharers i).mp hc hx
  have hne' : ∃ j ∈ v.sharers, j ≠ i := by
    obtain ⟨j, hj⟩ := Finset.card_pos.mp (Nat.pos_of_ne_zero hne)
    exact ⟨j, hj, fun hji => hi' (hji ▸ hj)⟩
  have hsec : isSecond action invUpdateAck := by
    rw [isSecond, h0, h1]
    exact ⟨by decide, rfl⟩
  have hsec' : ¬isSecond action invalidateAck := by
    rw [isSecond, h0]
    exact fun hc => hc.1 rfl
  have hcase := fun (s : System cfg) (S : SharingVector) (hs : s.Shows (cfg.blockOf a) v)
    (hS : S.sharers = v.sharers) =>
      snoop_invalidate (m := ⟨writeReq, a⟩) h hs hne'
        (fun h2 => hmulti (hc ▸ sharingOf_eq_many.mpr h2)) hS hsn hsec'
  have hdir : ∀ {resp}, IsFill resp → ∀ d : InfiniteDirectory,
      d.Records (cfg.blockOf a) (v.keepOnly i).sharers → Ends (IndexFault cfg)
        (d.processRequestResponse i writeReq resp (cfg.blockOf a)) fun d' =>
        d'.Records (cfg.blockOf a) {i} ∧ ∀ b', b' ≠ cfg.blockOf a → d' b' = d b' :=
    fun hf d hd => processRequestResponse_first hi hfetch hf
      (keepOnly_sharers_of_invalid h hx ▸ hd)
  have harr : action.allocate = true ∨ invalid = (v.keepOnly i).l2 ∨
      (v.keepOnly i).l2 ≠ invalid := .inr (Classical.em _ |>.imp Eq.symm id)
  have hfinal : ∀ w : Block, (∀ j, j ≠ i → w.l1 j = invalid) →
      (((w.setL2 invalid).setSharers {i}).setL1 i modified).Ok (2 * cfg.cmpWidth) :=
    fun w hw => Block.Ok.grantSole hw hi (.inl rfl) (by decide) (.inr (.inr (.inr rfl)))
      (by rintro (hc | hc) <;> cases hc) (by omega)
  by_cases hd : v.DirtyAbove
  · have row : Row cfg i ⟨writeReq, a⟩ action v (v.keepOnly i) action.response1 invalid {i} true :=
      Row.snooping (r := invUpdateAck)
        (fun s S hs hS => by
          obtain ⟨l, hl, hsh, hfr, hr⟩ := hcase s S hs hS
          exact ⟨l, hl, hsh, hfr, (hr.resolve_right fun hn => hn.1 hd).2⟩)
        (by rw [if_pos hsec]) (by rw [if_pos hsec, hns'])
        (by simp [hsn, isTerminal, h1]) (by simp) rfl (hdir (hresp' hd)) harr
    exact answers_of_row hs hl2 hc hact row fun evs _ =>
      hfinal _ fun j hj => keepOnly_l1_of_ne v hj
  · have row : Row cfg i ⟨writeReq, a⟩ action v (v.keepOnly i) action.response0 invalid {i} true :=
      Row.snooping (r := invalidateAck)
        (fun s S hs hS => by
          obtain ⟨l, hl, hsh, hfr, hr⟩ := hcase s S hs hS
          exact ⟨l, hl, hsh, hfr, (hr.resolve_left fun hn => hd hn.1).2⟩)
        (by rw [if_neg hsec']) (by rw [if_neg hsec', hns])
        (by simp [hsn, isTerminal, h0]) (by simp) rfl (hdir hresp) harr
    exact answers_of_row hs hl2 hc hact row fun evs _ =>
      hfinal _ fun j hj => keepOnly_l1_of_ne v hj

end Sole

/-! ### Reads, writes and upgrades -/

section Writing

variable (h : v.Ok (2 * cfg.cmpWidth)) (hs : s.Shows (cfg.blockOf a) v)
  (hi : i < 2 * cfg.cmpWidth) (heven : i % 2 = 0)

include h hs hi heven

/-- **A read** is answered with a copy the requester can keep as the reply says. -/
theorem read_spec (hx : v.l1 i = invalid) :
    Ends (IndexFault cfg) (processRequest i s ⟨readReq, a⟩)
      (Answers i ⟨readReq, a⟩ s fun resp v' _ => IsFill resp ∧
        (v'.setL1 i (loadFill resp)).Ok (2 * cfg.cmpWidth) ∧
        (v.Dirty → (v'.setL1 i (loadFill resp)).Dirty)) := by
  have hgs : ∀ q : System cfg × MemoryMessageType,
      Answers i ⟨readReq, a⟩ s (fun resp v' _ => GrantsShared cfg i v resp v') q →
      Answers i ⟨readReq, a⟩ s (fun resp v' _ => IsFill resp ∧
        (v'.setL1 i (loadFill resp)).Ok (2 * cfg.cmpWidth) ∧
        (v.Dirty → (v'.setL1 i (loadFill resp)).Dirty)) q := by
    rintro q ⟨ext, v', hsrv, hsh, hg⟩
    refine ⟨ext, v', hsrv, hsh, .inl hg.resp_eq, ?_⟩
    rw [hg.resp_eq]
    exact ⟨hg.ok, hg.dirty⟩
  have ht : readReq = readReq ∨ readReq = fetchReq := .inl rfl
  have ht' : readReq = readReq ∨ readReq = writeReq := .inl rfl
  have hm : IsMESI modified := .inl rfl
  have he : IsMESI exclusive := .inr (.inl rfl)
  have hsh : IsMESI shared := .inr (.inr (.inl rfl))
  have hclean : (∀ j, v.l1 j = invalid) → v.l2 ≠ modified → ¬v.Dirty := by
    rintro hall hl2 (⟨j, hj⟩ | hd)
    · rw [hall j] at hj
      cases hj
    · exact hl2 hd
  rcases h.mesi_l2 with hl2 | hl2 | hl2 | hl2 <;>
    rcases sharing_cases h with ⟨hc, hall⟩ | ⟨hc, hne⟩ | ⟨hc, hne, hall⟩
  · -- the dirty copy moves up
    refine (grantsSole_quiet modified h hs hi heven ht' hall (.inl rfl) hl2 hc rfl rfl
      (.inr (.inr rfl)) (.inl rfl) (.inr (.inr nofun))).mono ?_
    rintro q ⟨ext, v', hsrv, hsh, hresp, hok⟩
    refine ⟨ext, v', hsrv, hsh, ?_⟩
    rw [hresp]
    exact ⟨.inr (.inr rfl), hok, fun _ => .inl ⟨i, Function.update_self ..⟩⟩
  · exact (grantsShared_quiet h hs hi ht (h.below (.inl hl2)) hl2 hc rfl rfl rfl hm
      (.inr (.inl rfl)) fun _ => rfl).mono hgs
  · exact (grantsShared_quiet h hs hi ht hall hl2 hc rfl rfl rfl hm
      (.inr (.inl rfl)) fun _ => rfl).mono hgs
  · refine (grantsSole_quiet exclusive h hs hi heven ht' hall (.inr rfl) hl2 hc rfl rfl
      (.inr (.inl rfl)) (.inr rfl) (.inr (.inl rfl))).mono ?_
    rintro q ⟨ext, v', hsrv, hsh, hresp, hok⟩
    refine ⟨ext, v', hsrv, hsh, ?_⟩
    rw [hresp]
    exact ⟨.inr (.inl rfl), hok, fun hd => absurd hd (hclean hall (by rw [hl2]; nofun))⟩
  · exact (grantsShared_return h hs hi hx ht hne hl2 hc rfl rfl rfl rfl rfl (fun _ => rfl) he rfl
      (.inr nofun) nofun).mono hgs
  · exact (grantsShared_quiet h hs hi ht hall hl2 hc rfl rfl rfl he
      (.inr (.inl rfl)) nofun).mono hgs
  · exact (grantsShared_quiet h hs hi ht (fun j => .inl (hall j)) hl2 hc rfl rfl rfl hsh
      (.inr (.inl rfl)) nofun).mono hgs
  · exact (grantsShared_quiet h hs hi ht (h.below (.inr hl2)) hl2 hc rfl rfl rfl hsh
      (.inr (.inl rfl)) nofun).mono hgs
  · exact (grantsShared_quiet h hs hi ht hall hl2 hc rfl rfl rfl hsh
      (.inr (.inl rfl)) nofun).mono hgs
  · refine (grantsSole_quiet exclusive h hs hi heven ht' hall (.inr rfl) hl2 hc rfl rfl
      (.inr (.inl rfl)) (.inr rfl) (.inl rfl)).mono ?_
    rintro q ⟨ext, v', hsrv, hsh, hresp, hok⟩
    refine ⟨ext, v', hsrv, hsh, ?_⟩
    rw [hresp]
    exact ⟨.inr (.inl rfl), hok, fun hd => absurd hd (hclean hall (by rw [hl2]; nofun))⟩
  · exact (grantsShared_return h hs hi hx ht hne hl2 hc rfl rfl rfl rfl rfl (fun _ => rfl) hsh rfl
      (.inl rfl) nofun).mono hgs
  · exact (grantsShared_return h hs hi hx ht hne hl2 hc rfl rfl rfl rfl rfl (fun _ => rfl) hsh rfl
      (.inl rfl) nofun).mono hgs

/-- **A write** leaves the requester free to hold the block modified. -/
theorem write_spec (hx : v.l1 i = invalid) :
    Ends (IndexFault cfg) (processRequest i s ⟨writeReq, a⟩)
      (Answers i ⟨writeReq, a⟩ s fun _ v' _ =>
        (v'.setL1 i modified).Ok (2 * cfg.cmpWidth)) := by
  have ht' : writeReq = readReq ∨ writeReq = writeReq := .inr rfl
  have hgs : ∀ {resp} (q : System cfg × MemoryMessageType),
      Answers i ⟨writeReq, a⟩ s (fun r v' _ => r = resp ∧
        (v'.setL1 i modified).Ok (2 * cfg.cmpWidth)) q →
      Answers i ⟨writeReq, a⟩ s (fun _ v' _ => (v'.setL1 i modified).Ok (2 * cfg.cmpWidth)) q :=
    fun q ⟨ext, v', hsrv, hsh, hg⟩ => ⟨ext, v', hsrv, hsh, hg.2⟩
  have hmany : (∀ j, v.l1 j = invalid ∨ v.l1 j = shared) → ∀ r, v.DirtyAbove → IsFill r :=
    fun hall _ hd => absurd hd (Block.not_dirtyAbove hall)
  have hf : IsFill missReply := .inl rfl
  have hfw : IsFill missReplyWritable := .inr (.inl rfl)
  have hfd : IsFill missReplyDirty := .inr (.inr rfl)
  rcases h.mesi_l2 with hl2 | hl2 | hl2 | hl2 <;>
    rcases sharing_cases h with ⟨hc, hall⟩ | ⟨hc, hne⟩ | ⟨hc, hne, hall⟩
  · exact (grantsSole_quiet _ h hs hi heven ht' hall (.inl rfl) hl2 hc rfl rfl hfd (.inl rfl)
      (.inr (.inr nofun))).mono hgs
  · exact grantsSole_invalidate h hs hi heven hx hne hl2 hc rfl nofun rfl rfl rfl hfd
      (fun _ => hfd) rfl rfl
  · exact grantsSole_invalidate h hs hi heven hx hne hl2 hc rfl (fun _ => rfl) rfl rfl rfl hfd
      (fun _ => hfd) rfl rfl
  · exact (grantsSole_quiet _ h hs hi heven ht' hall (.inl rfl) hl2 hc rfl rfl hfw (.inl rfl)
      (.inr (.inr nofun))).mono hgs
  · exact grantsSole_invalidate h hs hi heven hx hne hl2 hc rfl nofun rfl rfl rfl hf
      (fun _ => hfd) rfl rfl
  · exact grantsSole_invalidate h hs hi heven hx hne hl2 hc rfl (fun _ => rfl) rfl rfl rfl hf
      (fun _ => hfd) rfl rfl
  · exact (grantsSole_quiet _ h hs hi heven ht' hall (.inl rfl) hl2 hc rfl rfl hfw (.inl rfl)
      (.inr (.inr nofun))).mono hgs
  · exact grantsSole_invalidate h hs hi heven hx hne hl2 hc rfl nofun rfl rfl rfl hf
      (fun _ => hf) rfl rfl
  · exact grantsSole_invalidate h hs hi heven hx hne hl2 hc rfl (fun _ => rfl) rfl rfl rfl hf
      (hmany hall _) rfl rfl
  · exact (grantsSole_quiet _ h hs hi heven ht' hall (.inl rfl) hl2 hc rfl rfl hfw (.inl rfl)
      (.inr (.inl rfl))).mono hgs
  · exact grantsSole_invalidate h hs hi heven hx hne hl2 hc rfl nofun rfl rfl rfl hf
      (fun _ => hf) rfl rfl
  · exact grantsSole_invalidate h hs hi heven hx hne hl2 hc rfl (fun _ => rfl) rfl rfl rfl hf
      (hmany hall _) rfl rfl

/-- **An upgrade** of a shared copy leaves the requester free to modify it. -/
theorem upgrade_spec (hx : v.l1 i = shared) :
    Ends (IndexFault cfg) (processRequest i s ⟨upgradeReq, a⟩)
      (Answers i ⟨upgradeReq, a⟩ s fun _ v' _ =>
        (v'.setL1 i modified).Ok (2 * cfg.cmpWidth)) := by
  have his : i ∈ v.sharers := (h.mem_sharers i).mpr (by rw [hx]; nofun)
  have hfinal : ∀ w : Block, (∀ j, j ≠ i → w.l1 j = invalid) →
      (((w.setL2 invalid).setSharers {i}).setL1 i modified).Ok (2 * cfg.cmpWidth) :=
    fun w hw => Block.Ok.grantSole hw hi (.inl rfl) nofun (.inr (.inr (.inr rfl)))
      (by rintro (hc | hc) <;> cases hc) (by omega)
  have hone : ∀ {x action}, v.l2 = x → v.sharers.card = 1 →
      SingleCMPProtocol.getAction x oneSharer upgradeReq = .ok action →
      action.snoopType = noRequest → action.response0 = upgradeReply →
      action.nextState0 = invalid → action.forwardRequest = false →
      Ends (IndexFault cfg) (processRequest i s ⟨upgradeReq, a⟩)
        (Answers i ⟨upgradeReq, a⟩ s fun _ v' _ =>
          (v'.setL1 i modified).Ok (2 * cfg.cmpWidth)) := by
    intro x action hl2 hc hact hsn hresp hns hfwd
    have hsi : v.sharers = {i} := by
      obtain ⟨k, hk⟩ := Finset.card_eq_one.mp hc
      rw [hk, Finset.mem_singleton] at his
      rw [hk, his]
    have row : Row cfg i ⟨upgradeReq, a⟩ action v v action.response0 action.nextState0 {i}
        false := Row.quiet hsn (by simp [hfwd]) (by rw [hfwd]; rfl)
      (fun d hd => hresp ▸ processRequestResponse_upgrade (hsi ▸ hd))
      (.inr (hns ▸ (Classical.em _ |>.imp Eq.symm id)))
    refine answers_of_row hs hl2 (by rw [hc]; rfl) hact row fun evs _ => ?_
    rw [hns]
    refine hfinal v fun j hj => ?_
    by_contra hjv
    have := (h.mem_sharers j).mpr hjv
    rw [hsi, Finset.mem_singleton] at this
    exact hj this
  have hmany : ∀ {x action}, v.l2 = x → 2 ≤ v.sharers.card →
      SingleCMPProtocol.getAction x manySharers upgradeReq = .ok action →
      action.snoopType = invalidate → action.terminalResponse0 = invalidateAck →
      action.response0 = upgradeReply → action.nextState0 = invalid →
      action.multicast = true →
      Ends (IndexFault cfg) (processRequest i s ⟨upgradeReq, a⟩)
        (Answers i ⟨upgradeReq, a⟩ s fun _ v' _ =>
          (v'.setL1 i modified).Ok (2 * cfg.cmpWidth)) := by
    intro x action hl2 hc hact hsn h0 hresp hns hmulti
    have hsec : ¬isSecond action invalidateAck := by
      rw [isSecond, h0]
      exact fun hc => hc.1 rfl
    have hnd : ¬v.DirtyAbove := by
      rintro ⟨j, hj⟩
      have := h.shared_of_two hc ((h.mem_sharers j).mpr (by rw [hj]; nofun))
      rw [hj] at this
      cases this
    have hki : (v.keepOnly i).sharers = {i} := by
      ext j
      simp only [Block.keepOnly, Finset.mem_filter, Finset.mem_singleton]
      exact ⟨fun hj => hj.2, fun hj => ⟨hj ▸ his, hj⟩⟩
    have row : Row cfg i ⟨upgradeReq, a⟩ action v (v.keepOnly i) upgradeReply invalid {i} true :=
      Row.snooping (r := invalidateAck)
        (fun s S hs hS => by
          obtain ⟨l, hl, hsh, hfr, ⟨hyd, -⟩ | ⟨-, hr⟩⟩ := snoop_invalidate (m := ⟨upgradeReq, a⟩)
            h hs (Finset.exists_mem_ne hc i) (fun _ => hmulti) hS hsn hsec
          · exact absurd hyd hnd
          · exact ⟨l, hl, hsh, hfr, hr⟩)
        (by rw [if_neg hsec, hresp]) (by rw [if_neg hsec, hns])
        (by simp [hsn, isTerminal, h0]) (by simp) rfl
        (fun d hd => processRequestResponse_upgrade (hki ▸ hd))
        (.inr (Classical.em _ |>.imp Eq.symm id))
    exact answers_of_row hs hl2 (sharingOf_eq_many.mpr hc) hact row fun evs _ =>
      hfinal _ fun j hj => keepOnly_l1_of_ne v hj
  have hpos : 0 < v.sharers.card := Finset.card_pos.mpr ⟨i, his⟩
  rcases Nat.lt_or_ge v.sharers.card 2 with hc | hc
  · have hc : v.sharers.card = 1 := by omega
    rcases h.mesi_l2 with hl2 | hl2 | hl2 | hl2
    · exact hone hl2 hc rfl rfl rfl rfl rfl
    · exact hone hl2 hc rfl rfl rfl rfl rfl
    · exact hone hl2 hc rfl rfl rfl rfl rfl
    · exact hone hl2 hc rfl rfl rfl rfl rfl
  · rcases h.mesi_l2 with hl2 | hl2 | hl2 | hl2
    · exact hmany hl2 hc rfl rfl rfl rfl rfl rfl
    · exact hmany hl2 hc rfl rfl rfl rfl rfl rfl
    · exact hmany hl2 hc rfl rfl rfl rfl rfl rfl
    · exact hmany hl2 hc rfl rfl rfl rfl rfl rfl

end Writing

/-! ### Non-allocating stores -/

section NonAllocating

variable {action : PrimaryAction} {x : CoherenceState} {y : SharingState}

/-- After a non-allocating store nobody above holds the block. -/
structure Stores (cfg : Config) (a : ℕ) (v v' : Block) (ext : List MemoryMessage) : Prop where
  ok : v'.Ok (2 * cfg.cmpWidth)
  written : v'.l2 = modified ∨ ⟨nonAllocatingStoreReq, a⟩ ∈ ext
  dirty : v.l2 ≠ invalid → v'.l2 = modified

theorem stores_quiet (h : v.Ok (2 * cfg.cmpWidth)) (hs : s.Shows (cfg.blockOf a) v)
    (hall : ∀ j, v.l1 j = invalid) (hl2 : v.l2 = x) (hc : sharingOf v.sharers.card = y)
    (hact : SingleCMPProtocol.getAction x y nonAllocatingStoreReq = .ok action)
    (hsn : action.snoopType = noRequest) (hresp : action.response0 = nonAllocatingStoreReply)
    (hns : action.nextState0 = modified ∧ x ≠ invalid ∨
      action.nextState0 = invalid ∧ x = invalid ∧ action.forwardRequest = true) :
    Ends (IndexFault cfg) (processRequest i s ⟨nonAllocatingStoreReq, a⟩)
      (Answers i ⟨nonAllocatingStoreReq, a⟩ s fun _ v' ext => Stores cfg a v v' ext) := by
  have row : Row cfg i ⟨nonAllocatingStoreReq, a⟩ action v v action.response0
      action.nextState0 v.sharers false := Row.quiet hsn (fun _ => ⟨_, rfl⟩)
    (by cases action.forwardRequest <;> rfl)
    (fun d hd => hresp ▸ processRequestResponse_nonAllocatingStore hd)
    (by
      rcases hns with ⟨-, hxi⟩ | ⟨hni, hxi, -⟩
      · exact .inr (.inr (hl2.symm ▸ hxi))
      · exact .inr (.inl (by rw [hni, hl2, hxi])))
  refine answers_of_row hs hl2 hc hact row fun evs _ => ?_
  rcases hns with ⟨hnm, hxi⟩ | ⟨hni, hxi, hfwd⟩
  · rw [hnm]
    refine ⟨?_, .inl rfl, fun _ => rfl⟩
    have := Block.Ok.clear (n := 2 * cfg.cmpWidth) hall (.inl rfl : IsMESI modified)
    rwa [← sharers_of_invalid h hall] at this
  · rw [hni, hfwd]
    refine ⟨?_, .inr (by simp), fun hc => absurd (hl2.trans hxi) hc⟩
    have := Block.Ok.clear (n := 2 * cfg.cmpWidth) hall
      (.inr (.inr (.inr rfl)) : IsMESI invalid)
    rwa [← sharers_of_invalid h hall] at this

/-- A non-allocating store to a block that private caches hold: they lose it. -/
theorem stores_invalidate (h : v.Ok (2 * cfg.cmpWidth)) (hs : s.Shows (cfg.blockOf a) v)
    (hx : v.l1 i = invalid) (hne : v.sharers.card ≠ 0) (hl2 : v.l2 = x)
    (hc : sharingOf v.sharers.card = y)
    (hact : SingleCMPProtocol.getAction x y nonAllocatingStoreReq = .ok action)
    (hmulti : y = manySharers → action.multicast = true)
    (hsn : action.snoopType = invalidate)
    (hresp : action.response0 = nonAllocatingStoreReply)
    (hresp' : v.DirtyAbove → isSecond action invUpdateAck →
      action.response1 = nonAllocatingStoreReply)
    (hterm : action.terminalResponse0 = invalidateAck ∧
        action.terminalResponse1 = invUpdateAck ∧ x ≠ invalid ∧
        action.nextState0 = modified ∧ action.nextState1 = modified ∨
      action.terminalResponse0 = noRequest ∧ action.terminalResponse1 = noRequest ∧
        x = invalid ∧ action.nextState0 = invalid ∧ action.forwardRequest = true) :
    Ends (IndexFault cfg) (processRequest i s ⟨nonAllocatingStoreReq, a⟩)
      (Answers i ⟨nonAllocatingStoreReq, a⟩ s fun _ v' ext => Stores cfg a v v' ext) := by
  have hi' : i ∉ v.sharers := fun hc => (h.mem_sharers i).mp hc hx
  have hne' : ∃ j ∈ v.sharers, j ≠ i := by
    obtain ⟨j, hj⟩ := Finset.card_pos.mp (Nat.pos_of_ne_zero hne)
    exact ⟨j, hj, fun hji => hi' (hji ▸ hj)⟩
  have hsec : ¬isSecond action invalidateAck := by
    rcases hterm with ⟨h0, -⟩ | ⟨-, h1, -⟩
    · rw [isSecond, h0]
      exact fun hc => hc.1 rfl
    · rw [isSecond, h1]
      intro hc
      cases hc.2
  have hall : ∀ j, (v.keepOnly i).l1 j = invalid := by
    intro j
    by_cases hj : j = i
    · subst hj
      exact (if_pos rfl).trans hx
    · exact keepOnly_l1_of_ne v hj
  have hcase := fun (s : System cfg) (S : SharingVector) (hs : s.Shows (cfg.blockOf a) v)
    (hS : S.sharers = v.sharers) =>
      snoop_invalidate (m := ⟨nonAllocatingStoreReq, a⟩) h hs hne'
        (fun h2 => hmulti (hc ▸ sharingOf_eq_many.mpr h2)) hS hsn hsec
  have hfinal : ∀ {z}, IsMESI z → Block.Ok (2 * cfg.cmpWidth)
      (((v.keepOnly i).setL2 z).setSharers (v.keepOnly i).sharers) := by
    intro z hz
    have := Block.Ok.clear (n := 2 * cfg.cmpWidth) hall hz
    rwa [← keepOnly_sharers_of_invalid h hx] at this
  -- whichever reply comes back, the row does the same
  have hrow : ∀ r, (v.DirtyAbove ∧ r = invUpdateAck ∨ ¬v.DirtyAbove ∧ r = invalidateAck) →
      ∃ ns success, Row cfg i ⟨nonAllocatingStoreReq, a⟩ action v (v.keepOnly i)
        nonAllocatingStoreReply ns (v.keepOnly i).sharers success ∧
        (ns = modified ∧ x ≠ invalid ∨ ns = invalid ∧ x = invalid ∧
          (!success && action.forwardRequest) = true) := by
    intro r hr
    have hsn' := fun (s : System cfg) (S : SharingVector) (hs : s.Shows (cfg.blockOf a) v)
        (hS : S.sharers = v.sharers) => show ∃ l, snoop action ⟨nonAllocatingStoreReq, a⟩
          (cfg.blockOf a) i S s = .ok l ∧ l.sys.Shows (cfg.blockOf a) (v.keepOnly i) ∧
          Frame i (cfg.blockOf a) s l.sys ∧ Snooped action r l by
      obtain ⟨l, hl, hsh, hfr, hl'⟩ := hcase s S hs hS
      refine ⟨l, hl, hsh, hfr, ?_⟩
      rcases hr with ⟨hyd, rfl⟩ | ⟨hnd, rfl⟩
      · exact (hl'.resolve_right fun hn => hn.1 hyd).2
      · exact (hl'.resolve_left fun hn => hnd hn.1).2
    have hresp'' : (if isSecond action r then action.response1 else action.response0) =
        nonAllocatingStoreReply := by
      split
      · rename_i hs2
        rcases hr with ⟨hyd, rfl⟩ | ⟨-, rfl⟩
        · exact hresp' hyd hs2
        · exact absurd hs2 hsec
      · exact hresp
    rcases hterm with ⟨h0, h1, hxi, hn0, hn1⟩ | ⟨h0, h1, hxi, hn0, hfwd⟩
    · refine ⟨modified, true, Row.snooping hsn' hresp'' (by rw [hn0, hn1, ite_self]) ?_ (by simp)
        rfl (fun d hd => processRequestResponse_nonAllocatingStore hd)
        (.inr (.inr (hl2.symm ▸ hxi))), .inl ⟨rfl, hxi⟩⟩
      rcases hr with ⟨-, rfl⟩ | ⟨-, rfl⟩ <;> simp [hsn, isTerminal, h0, h1]
    · have hnsec : ¬isSecond action r := by
        rw [isSecond, h0, h1]
        exact fun hc => hc.1 hc.2
      refine ⟨invalid, false, Row.snooping hsn' hresp'' (by rw [if_neg hnsec, hn0]) ?_
        (fun _ => ⟨_, rfl⟩) (by rw [hfwd]; rfl)
        (fun d hd => processRequestResponse_nonAllocatingStore hd)
        (.inr (.inl (hxi.symm.trans hl2.symm))), .inr ⟨rfl, hxi, by simp [hfwd]⟩⟩
      rcases hr with ⟨-, rfl⟩ | ⟨-, rfl⟩ <;> simp [isTerminal, h0, h1]
  obtain ⟨r, hr⟩ : ∃ r, v.DirtyAbove ∧ r = invUpdateAck ∨ ¬v.DirtyAbove ∧ r = invalidateAck := by
    by_cases hd : v.DirtyAbove
    · exact ⟨_, .inl ⟨hd, rfl⟩⟩
    · exact ⟨_, .inr ⟨hd, rfl⟩⟩
  obtain ⟨ns, success, row, hcase'⟩ := hrow r hr
  refine answers_of_row hs hl2 hc hact row fun evs _ => ?_
  rcases hcase' with ⟨rfl, hxi⟩ | ⟨rfl, hxi, hfwd⟩
  · exact ⟨hfinal (.inl rfl), .inl rfl, fun _ => rfl⟩
  · exact ⟨hfinal (.inr (.inr (.inr rfl))), .inr (by simp [hfwd]),
      fun hc => absurd (hl2.trans hxi) hc⟩

/-- **A non-allocating store** is taken by the shared cache if it holds the block,
and goes to memory otherwise. -/
theorem nonAllocatingStore_spec (h : v.Ok (2 * cfg.cmpWidth))
    (hs : s.Shows (cfg.blockOf a) v) (hx : v.l1 i = invalid) :
    Ends (IndexFault cfg) (processRequest i s ⟨nonAllocatingStoreReq, a⟩)
      (Answers i ⟨nonAllocatingStoreReq, a⟩ s fun _ v' ext => Stores cfg a v v' ext) := by
  have hmany : (∀ j, v.l1 j = invalid ∨ v.l1 j = shared) →
      ∀ {p : Prop}, v.DirtyAbove → p := fun hall {_} hd =>
    absurd hd (Block.not_dirtyAbove hall)
  rcases h.mesi_l2 with hl2 | hl2 | hl2 | hl2 <;>
    rcases sharing_cases h with ⟨hc, hall⟩ | ⟨hc, hne⟩ | ⟨hc, hne, hall⟩
  · exact stores_quiet h hs hall hl2 hc rfl rfl rfl (.inl ⟨rfl, nofun⟩)
  · exact stores_invalidate h hs hx hne hl2 hc rfl nofun rfl rfl (fun _ _ => rfl)
      (.inl ⟨rfl, rfl, nofun, rfl, rfl⟩)
  · exact stores_invalidate h hs hx hne hl2 hc rfl (fun _ => rfl) rfl rfl (fun _ _ => rfl)
      (.inl ⟨rfl, rfl, nofun, rfl, rfl⟩)
  · exact stores_quiet h hs hall hl2 hc rfl rfl rfl (.inl ⟨rfl, nofun⟩)
  · exact stores_invalidate h hs hx hne hl2 hc rfl nofun rfl rfl (fun _ _ => rfl)
      (.inl ⟨rfl, rfl, nofun, rfl, rfl⟩)
  · exact stores_invalidate h hs hx hne hl2 hc rfl (fun _ => rfl) rfl rfl (fun _ _ => rfl)
      (.inl ⟨rfl, rfl, nofun, rfl, rfl⟩)
  · exact stores_quiet h hs hall hl2 hc rfl rfl rfl (.inl ⟨rfl, nofun⟩)
  · exact stores_invalidate h hs hx hne hl2 hc rfl nofun rfl rfl (fun _ _ => rfl)
      (.inl ⟨rfl, rfl, nofun, rfl, rfl⟩)
  · exact stores_invalidate h hs hx hne hl2 hc rfl (fun _ => rfl) rfl rfl
      (fun hd => hmany hall hd) (.inl ⟨rfl, rfl, nofun, rfl, rfl⟩)
  · exact stores_quiet h hs hall hl2 hc rfl rfl rfl (.inr ⟨rfl, rfl, rfl⟩)
  · exact stores_invalidate h hs hx hne hl2 hc rfl nofun rfl rfl (fun _ _ => rfl)
      (.inr ⟨rfl, rfl, rfl, rfl, rfl⟩)
  · exact stores_invalidate h hs hx hne hl2 hc rfl (fun _ => rfl) rfl rfl
      (fun hd => hmany hall hd) (.inr ⟨rfl, rfl, rfl, rfl, rfl⟩)

end NonAllocating

/-! ### Evictions -/

/-- The copy of a private cache is gone, and nothing dirty with it. -/
structure Releases (cfg : Config) (i : ℕ) (v v' : Block) : Prop where
  ok : (v'.setL1 i invalid).Ok (2 * cfg.cmpWidth)
  dirty : v.Dirty → (v'.setL1 i invalid).Dirty

section Eviction

variable {t : MemoryMessageType} {action : PrimaryAction} {x : CoherenceState}
  {y : SharingState}

theorem releases_of_row (h : v.Ok (2 * cfg.cmpWidth)) (hs : s.Shows (cfg.blockOf a) v)
    (ht : IsEvict t) (hv : v.l1 i ≠ invalid) (hl2 : v.l2 = x)
    (hc : sharingOf v.sharers.card = y)
    (hact : SingleCMPProtocol.getAction x y t = .ok action)
    (hsn : action.snoopType = noRequest) (hfwd : action.forwardRequest = false)
    (hns : IsMESI action.nextState0)
    (harr : action.allocate = true ∨ action.nextState0 = x)
    (hbelow : action.nextState0 = modified ∨ action.nextState0 = shared →
      ∀ j, j ≠ i → v.l1 j = invalid ∨ v.l1 j = shared)
    (hdirty : v.Dirty → action.nextState0 = modified ∨ ∃ j, j ≠ i ∧ v.l1 j = modified) :
    Ends (IndexFault cfg) (processRequest i s ⟨t, a⟩)
      (Answers i ⟨t, a⟩ s fun _ v' _ => Releases cfg i v v') := by
  have row : Row cfg i ⟨t, a⟩ action v v action.response0 action.nextState0
      (v.sharers.erase i) false := Row.quiet hsn (by simp [hfwd])
    (by rw [hfwd]; rcases ht with rfl | rfl | rfl <;> rfl)
    (fun d hd => processRequestResponse_release ht ((h.mem_sharers i).mpr hv) hd)
    (harr.imp id fun hn => .inl (hn.trans hl2.symm))
  refine answers_of_row hs hl2 hc hact row fun evs _ => ⟨h.release hns hbelow, fun hd => ?_⟩
  rcases hdirty hd with hm | ⟨j, hj, hjm⟩
  · exact .inr hm
  · exact .inl ⟨j, (Function.update_of_ne hj _ _).trans hjm⟩

/-- **An eviction** is reported with the message for the state of the block, and
releases the copy. -/
theorem evict_spec (h : v.Ok (2 * cfg.cmpWidth)) (hs : s.Shows (cfg.blockOf a) v)
    (hv : v.l1 i ≠ invalid) :
    Ends (IndexFault cfg) (processRequest i s ⟨evictMessage (v.l1 i), a⟩)
      (Answers i ⟨evictMessage (v.l1 i), a⟩ s fun _ v' _ => Releases cfg i v v') := by
  have his : i ∈ v.sharers := (h.mem_sharers i).mpr hv
  have hnot : ∀ {z}, v.l1 i = z → z = modified ∨ z = exclusive → v.l2 = modified ∨
      v.l2 = shared → False := by
    intro z hz hz' hl
    rcases h.below hl i with hc | hc
    · exact hv hc
    · rw [hz] at hc
      rcases hz' with rfl | rfl <;> cases hc
  have hone : ∀ {z}, v.l1 i = z → z = modified ∨ z = exclusive →
      sharingOf v.sharers.card = oneSharer := by
    intro z hz hz'
    rw [h.sharers_eq (hz ▸ hz'), Finset.card_singleton]
    rfl
  have hothers : ∀ {z}, v.l1 i = z → z = modified ∨ z = exclusive →
      ∀ j, j ≠ i → v.l1 j = invalid ∨ v.l1 j = shared :=
    fun hz hz' j hj => .inl (h.single i j hj.symm (hz ▸ hz'))
  have hm : IsMESI modified := .inl rfl
  have he : IsMESI exclusive := .inr (.inl rfl)
  rcases h.mesi i with hx | hx | hx | hx
  · rw [hx]
    have ht : IsEvict (evictMessage modified) := .inr (.inr rfl)
    rcases h.mesi_l2 with hl2 | hl2 | hl2 | hl2
    · exact (hnot hx (.inl rfl) (.inl hl2)).elim
    · exact releases_of_row h hs ht hv hl2 (hone hx (.inl rfl)) rfl rfl rfl hm (.inl rfl)
        (fun _ => hothers hx (.inl rfl)) fun _ => .inl rfl
    · exact (hnot hx (.inl rfl) (.inr hl2)).elim
    · exact releases_of_row h hs ht hv hl2 (hone hx (.inl rfl)) rfl rfl rfl hm (.inl rfl)
        (fun _ => hothers hx (.inl rfl)) fun _ => .inl rfl
  · rw [hx]
    have ht : IsEvict (evictMessage exclusive) := .inr (.inl rfl)
    have hclean : v.l2 ≠ modified → ¬v.Dirty := by
      rintro hl2 (⟨j, hj⟩ | hd)
      · by_cases hji : j = i
        · subst hji
          rw [hx] at hj
          cases hj
        · rw [h.single i j (Ne.symm hji) (.inr hx)] at hj
          cases hj
      · exact hl2 hd
    rcases h.mesi_l2 with hl2 | hl2 | hl2 | hl2
    · exact (hnot hx (.inr rfl) (.inl hl2)).elim
    · exact releases_of_row h hs ht hv hl2 (hone hx (.inr rfl)) rfl rfl rfl he (.inr rfl)
        (fun _ => hothers hx (.inr rfl)) fun hd => absurd hd (hclean (by rw [hl2]; nofun))
    · exact (hnot hx (.inr rfl) (.inr hl2)).elim
    · exact releases_of_row h hs ht hv hl2 (hone hx (.inr rfl)) rfl rfl rfl he (.inl rfl)
        (fun _ => hothers hx (.inr rfl)) fun hd => absurd hd (hclean (by rw [hl2]; nofun))
  · rw [hx]
    have ht : IsEvict (evictMessage shared) := .inl rfl
    have hdirty : v.Dirty → v.l2 = modified ∨ ∃ j, j ≠ i ∧ v.l1 j = modified := by
      rintro (⟨j, hj⟩ | hd)
      · refine .inr ⟨j, ?_, hj⟩
        rintro rfl
        rw [hx] at hj
        cases hj
      · exact .inl hd
    have hbelow : v.l2 = modified ∨ v.l2 = shared →
        ∀ j, j ≠ i → v.l1 j = invalid ∨ v.l1 j = shared := fun hl j _ => h.below hl j
    have hcard : sharingOf v.sharers.card = oneSharer ∨
        sharingOf v.sharers.card = manySharers := by
      have hpos : 0 < v.sharers.card := Finset.card_pos.mpr ⟨i, his⟩
      rw [sharingOf_eq_one, sharingOf_eq_many]
      omega
    rcases h.mesi_l2 with hl2 | hl2 | hl2 | hl2 <;> rw [hl2] at hdirty hbelow <;>
      rcases hcard with hc | hc
    all_goals
      exact releases_of_row h hs ht hv hl2 hc rfl rfl rfl (hl2 ▸ h.mesi_l2) (.inr rfl) hbelow
        hdirty
  · exact absurd hx hv

end Eviction

end FastCMPCache

end Flexus
