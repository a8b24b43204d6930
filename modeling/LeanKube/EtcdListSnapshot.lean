import LeanKube.EtcdListReads

/-! Following the continue tokens of `store.List`: the pages together are the objects of one revision, as
long as no page mixes revisions. -/

namespace LeanKube.Etcd3
open List Storage GoStrings Int64 Nat Etcd Snapshot Progress

/-- No page mixes revisions: a read that names no revision, and is not the first one of its call, finds in
the keys that are still to be read what was there at the revision of the first one. -/
def Listing.Steady {α : Type} (w : Listing α) : ListTurn → Prop
  | .commit _ _ => True
  | .read =>
    ∀ loop, w.progress = .listing loop → loop.options.rev = 0 → loop.returnedRV ≠ 0 →
      (w.etcd.snapshot w.etcd.revision).range loop.key loop.options.rangeEnd =
        (w.etcd.snapshot loop.returnedRV).range loop.key loop.options.rangeEnd

namespace ListStore
variable {α : Type} (s : ListStore α)

theorem keyPrefix_eq_append (key : String) : ∃ front, s.keyPrefix key = front ++ "/" := by
  rw [keyPrefix]
  generalize (if s.pathPrefix ≠ "" then GoPath.join s.pathPrefix key else key) = joined
  by_cases h : hasSuffix joined "/"
  · obtain ⟨front, hfront⟩ := hasSuffix_iff.mp h
    refine ⟨String.ofList front, ?_⟩
    simp only [h, Bool.not_true, Bool.false_eq_true, if_false]
    have hjoined : joined = String.ofList (front ++ "/".toList) := by rw [hfront, String.ofList_toList]
    rw [hjoined, String.ofList_append, String.ofList_toList]
  · exact ⟨joined, by simp [h]⟩

def listSystem : System (Listing α) ListTurn := .ofFun Listing.Enabled s.next

def steadySystem : System (Listing α) ListTurn := .ofFun (fun w turn => w.Enabled turn ∧ w.Steady turn) s.next

/-! ### The state of a listing -/

section Invariant
variable (first : ListRequest α)

def listed (etcd : Etcd) (rv : Int64) : List Entry := (etcd.snapshot rv).under (s.keyPrefix first.key)

structure Ready (loop : Loop α) : Prop where
  keyPrefix : loop.keyPrefix = s.keyPrefix first.key
  rangeEnd : loop.options.rangeEnd = getPrefixRangeEnd (s.keyPrefix first.key)
  limit : loop.options.limit = first.limit
  paging : loop.paging = true
  room : loop.items.length < first.limit.toInt

structure Fresh (reads : Nat) (pages : List (Page α)) (loop : Loop α) : Prop where
  pages_eq : pages = []
  items : loop.items = []
  key : loop.key = s.keyPrefix first.key
  reads_eq : reads = 0
  version : loop.returnedRV = 0 ∧ loop.options.rev = 0 ∨ 0 < loop.returnedRV ∧ loop.options.rev = loop.returnedRV

/-- The pages so far, and the items of the next one, are the objects of some keys of a revision, and the
others are still to be read. -/
structure Reading (reads : Nat) (etcd : Etcd) (pages : List (Page α)) (rv : Int64) (items : List (Object α))
    (unread : List Entry) : Prop where
  positive : 0 < rv
  present : rv ≤ etcd.revision
  reported : ∀ page ∈ pages, page.resourceVersion = Strconv.formatUint rv.toUInt64
  taken : ∃ read, s.listed first etcd rv = read ++ unread ∧ reads ≤ read.length ∧
    pages.flatMap Page.items ++ items = s.selected first.pred read

/-- How far a listing is. It fails only where etcd does not have the revision that the first request asks for, or
where a value cannot be read. -/
def Standing (reads : Nat) (etcd : Etcd) (pages : List (Page α)) : Progress α → Prop
  | .failed err => (pages = [] ∧ reads ≤ 1 ∧ ∃ text, err = .badRequest text ∨ err = .etcd text) ∨
      ∃ rv items unread, s.Reading first (reads - 1) etcd pages rv items unread ∧
        ∃ entry ∈ unread, s.object entry = none
  | .finished => 0 < reads ∧ ∃ rv, s.Reading first (reads - 1) etcd pages rv [] []
  | .listing loop => s.Ready first loop ∧ (s.Fresh first reads pages loop ∨
      (loop.options.rev = 0 ∨ loop.options.rev = loop.returnedRV) ∧
        s.Reading first reads etcd pages loop.returnedRV loop.items
          ((etcd.snapshot loop.returnedRV).range loop.key loop.options.rangeEnd))

structure Good (reads : Nat) (w : Listing α) : Prop where
  key : w.request.key = first.key
  pred : w.request.pred = first.pred
  limit : w.request.limit = first.limit
  limited : ∀ page ∈ w.pages, page.items.length ≤ first.limit.toInt
  standing : s.Standing first reads w.etcd w.pages w.progress

end Invariant

variable {s} {first : ListRequest α} {reads : Nat} {etcd : Etcd} {pages : List (Page α)} {rv : Int64}
  {items : List (Object α)} {unread : List Entry} {w : Listing α} {loop : Loop α} {key : String}

theorem Reading.commit (h : s.Reading first reads etcd pages rv items unread) (revision : Int64)
    (snapshot : Snapshot) : s.Reading first reads (etcd.commit revision snapshot) pages rv items unread where
  positive := h.positive
  present := h.present.trans (commit_revision_le revision snapshot)
  reported := h.reported
  taken := by
    rw [listed, commit_snapshot h.present]
    exact h.taken

theorem Reading.take {more back : List Entry} {reads' : Nat}
    (h : s.Reading first reads etcd pages rv items (more ++ back)) (hreads : reads' ≤ reads + more.length) :
    s.Reading first reads' etcd pages rv (items ++ s.selected first.pred more) back where
  __ := h
  taken := by
    obtain ⟨read, hlisted, _, hitems⟩ := h.taken
    refine ⟨read ++ more, by rw [hlisted, append_assoc], ?_, ?_⟩
    · rw [length_append]
      omega
    · rw [← append_assoc, hitems, ← selected_append]

theorem Reading.advance {front back : List Entry} {last : Entry}
    (h : s.Reading first reads etcd pages rv items (front ++ last :: back)) :
    s.Reading first (reads + 1) etcd pages rv (items ++ s.selected first.pred (front ++ [last])) back := by
  rw [append_cons] at h
  exact h.take (by simp)

theorem toUInt64_ne_zero (h : 0 < rv) : rv.toUInt64 ≠ 0 := by
  intro hzero
  have : rv = 0 := by rw [← toInt64_toUInt64 rv, hzero]; rfl
  exact absurd h (this ▸ lt_irrefl _)

theorem Reading.turn (h : s.Reading first reads etcd pages rv items unread) (token : String) :
    s.Reading first reads etcd (pages ++ [updateList items rv.toUInt64 token]) rv [] unread where
  __ := h
  reported := by
    intro page hpage
    rcases mem_append.mp hpage with hpage | hpage
    · exact h.reported page hpage
    · rw [mem_singleton.mp hpage, updateList, if_pos (toUInt64_ne_zero h.positive)]
  taken := by
    obtain ⟨read, hlisted, hreads, hitems⟩ := h.taken
    refine ⟨read, hlisted, hreads, ?_⟩
    rw [flatMap_append, append_nil, ← hitems]
    simp [updateList]

variable {entry : Entry}

theorem Reading.mem_unread (h : s.Reading first reads etcd pages rv items unread)
    (hent : entry ∈ unread) : IsStoreKey entry.key ∧ hasPrefix entry.key (s.keyPrefix first.key) := by
  obtain ⟨_, hlisted, -⟩ := h.taken
  have hmem : entry ∈ s.listed first etcd rv := hlisted ▸ mem_append_right _ hent
  obtain ⟨hents, hstart⟩ := mem_filter.mp hmem
  exact ⟨(etcd.snapshot rv).storeKeys entry hents, hstart⟩

theorem send_token (request : ListRequest α) (hpaging : s.pagingEnabled = true)
    (hlimit : 0 < request.limit) (hrv : 0 < rv) (hkey : IsStoreKey entry.key)
    (hstart : hasPrefix entry.key (s.keyPrefix request.key)) :
    ∃ token, s.encodeContinue (entry.key ++ "\x00") (s.keyPrefix request.key) rv = .ok token ∧ token ≠ "" ∧
      s.send { request with continue_ := token, resourceVersion := "" } = .listing
        { keyPrefix := s.keyPrefix request.key, key := entry.key ++ "\x00"
          options := ⟨getPrefixRangeEnd (s.keyPrefix request.key), request.limit, rv⟩
          paging := true, returnedRV := rv, items := [], lastKey := "" } := by
  obtain ⟨_, hfront⟩ := s.keyPrefix_eq_append request.key
  have hne : rv ≠ 0 := hrv.ne'
  obtain ⟨token, hencode, htoken, hdec⟩ := s.decodeContinue_encodeContinue hne hkey (hfront ▸ hstart)
  rw [← hfront] at hencode hdec
  have hlen : 0 < token.length := by
    rw [pos_iff_ne_zero, Ne, String.length_eq_zero_iff]
    exact htoken
  refine ⟨token, hencode, htoken, ?_⟩
  simp only [send, beginList, hpaging, hlimit, hlen, hdec, hrv]
  simp

theorem send_first {request : ListRequest α} (hpaging : s.pagingEnabled = true) (hlimit : 0 < request.limit)
    (htoken : request.continue_ = "") {fromRV : UInt64}
    (hver : parseResourceVersion request.resourceVersion = .ok fromRV) :
    s.send request = .listing
      { keyPrefix := s.keyPrefix request.key, key := s.keyPrefix request.key
        options := ⟨getPrefixRangeEnd (s.keyPrefix request.key), request.limit,
          if 0 < fromRV then fromRV.toInt64 else 0⟩
        paging := true, returnedRV := fromRV.toInt64, items := [], lastKey := "" } := by
  simp only [send, beginList, hpaging, hlimit, htoken, hver]
  simp

/-! ### One step -/

section
variable (h : s.Good first reads w)
include h

theorem Good.commit (revision : Int64) (snapshot : Snapshot) :
    s.Good first reads { w with etcd := w.etcd.commit revision snapshot } := by
  refine { h with standing := ?_ }
  have hstanding := h.standing
  cases hprog : w.progress with
  | failed =>
    rw [hprog] at hstanding
    refine hstanding.imp_right ?_
    intro ⟨rv, items, unread, hread, hent⟩
    exact ⟨rv, items, unread, hread.commit revision snapshot, hent⟩
  | finished =>
    rw [hprog] at hstanding
    obtain ⟨hreads, rv, hread⟩ := hstanding
    exact ⟨hreads, rv, hread.commit revision snapshot⟩
  | listing loop =>
    rw [hprog] at hstanding
    refine ⟨hstanding.1, hstanding.2.imp_right ?_⟩
    intro ⟨hrev, hread⟩
    refine ⟨hrev, ?_⟩
    rw [commit_snapshot hread.present]
    exact hread.commit revision snapshot

theorem Good.limited_append (hitems : items.length ≤ first.limit.toInt)
    (token : String) : ∀ page ∈ w.pages ++ [updateList items rv.toUInt64 token],
      page.items.length ≤ first.limit.toInt := by
  intro page hpage
  rcases mem_append.mp hpage with hpage | hpage
  · exact h.limited page hpage
  · rw [mem_singleton.mp hpage]
    exact hitems

end

section
variable (hpaging : s.pagingEnabled = true) (hlimit : 0 < first.limit) (h : s.Good first reads w)
include hpaging hlimit h

theorem Good.receive_token (hkey : IsStoreKey entry.key) (hstart : hasPrefix entry.key (s.keyPrefix first.key))
    (hread : s.Reading first (reads + 1) w.etcd w.pages rv items
      ((w.etcd.snapshot rv).range (entry.key ++ "\x00") (getPrefixRangeEnd (s.keyPrefix first.key))))
    (hitems : items.length ≤ first.limit.toInt) :
    ∃ token, s.encodeContinue (entry.key ++ "\x00") (s.keyPrefix first.key) rv = .ok token ∧
      s.Good first (reads + 1) (s.receive w (updateList items rv.toUInt64 token)) := by
  obtain ⟨token, hencode, htoken, hsend⟩ := send_token w.request hpaging (h.limit ▸ hlimit) hread.positive hkey
    (h.key ▸ hstart)
  rw [h.key] at hencode
  refine ⟨token, hencode, ?_⟩
  rw [receive, if_neg (show (updateList items rv.toUInt64 token).continue_ ≠ "" from htoken)]
  have hpos : 0 < first.limit.toInt := lt_iff_toInt_lt.mp hlimit
  refine { h with limited := h.limited_append hitems token, standing := ?_ }
  change s.Standing first _ _ _ (s.send { w.request with continue_ := token, resourceVersion := "" })
  rw [hsend]
  refine ⟨⟨congrArg s.keyPrefix h.key, by rw [h.key], h.limit, rfl, hpos⟩, .inr ⟨.inr rfl, ?_⟩⟩
  rw [h.key]
  exact hread.turn token

theorem Good.read (hready : s.Ready first loop)
    (hrv : rv = if loop.returnedRV = 0 then w.etcd.revision else loop.returnedRV)
    (hrev : loop.options.rev = 0 ∨ loop.options.rev = rv)
    (hrange : (w.etcd.snapshot (w.etcd.readRevision loop.options.rev)).range loop.key loop.options.rangeEnd =
      (w.etcd.snapshot rv).range loop.key loop.options.rangeEnd)
    (hread : s.Reading first reads w.etcd w.pages rv loop.items
      ((w.etcd.snapshot rv).range loop.key loop.options.rangeEnd)) :
    s.Good first (reads + 1) (s.readNext w loop) := by
  have hpres : ¬ w.etcd.revision < loop.options.rev := by
    rcases hrev with hrev | hrev
    · rw [hrev]
      exact w.etcd.positive.not_gt
    · rw [hrev]
      exact hread.present.not_gt
  obtain ⟨kvs, rest, hsplit, hget, hkvs⟩ := get_spec loop.key (hready.limit ▸ hlimit) hpres
  rw [hrange] at hsplit
  rw [hsplit] at hread
  have hroom : loop.items.length < w.request.limit.toInt := h.limit ▸ hready.room
  have hcases := s.after_afterRead w.request hready.paging hroom hkvs hrv
  simp only [readNext, hget]
  generalize s.afterRead w.request loop _ = result at hcases ⊢
  cases hcases with
  | unreadable hmem hnone =>
    exact { h with standing := .inr ⟨rv, loop.items, kvs ++ rest, hread, _, hmem, hnone⟩ }
  | again hunread heq hroom =>
    rw [hunread] at hread hsplit
    rw [h.pred] at heq
    refine { h with standing := ⟨{ hready with room := h.limit ▸ hroom }, .inr ⟨hrev, ?_⟩⟩ }
    rw [range_after _ hsplit, heq]
    exact hread.advance
  | @token front _ _ _ _ hunread heq hlen hresult =>
    rw [hunread] at hread hsplit
    rw [h.pred] at heq
    obtain ⟨hkey, hstart⟩ := hread.mem_unread (mem_append_right front mem_cons_self)
    have hadvance := hread.advance
    rw [← range_after _ hsplit, hready.rangeEnd, ← heq] at hadvance
    obtain ⟨token, hencode, hgood⟩ := h.receive_token hpaging hlimit hkey hstart hadvance (h.limit ▸ hlen)
    rw [hresult token (hready.keyPrefix ▸ hencode)]
    exact hgood
  | last heq hlen =>
    rw [← append_nil (kvs ++ rest)] at hread
    rw [h.pred] at heq
    have hpage := (hread.take (le_add_right _ _)).turn ""
    rw [← heq] at hpage
    exact { h with limited := h.limited_append (h.limit ▸ hlen) "", standing := ⟨succ_pos reads, rv, hpage⟩ }

theorem Good.read_fresh (hready : s.Ready first loop) (hfresh : s.Fresh first reads w.pages loop) :
    s.Good first (reads + 1) (s.readNext w loop) := by
  by_cases hfuture : w.etcd.revision < loop.options.rev
  · simp only [readNext, Etcd.get, if_pos hfuture]
    exact { h with standing := .inl ⟨hfresh.pages_eq, by rw [hfresh.reads_eq], _, .inr rfl⟩ }
  · generalize hrv : (if loop.returnedRV = 0 then w.etcd.revision else loop.returnedRV) = rv
    have hver : 0 < rv ∧ rv ≤ w.etcd.revision ∧ w.etcd.readRevision loop.options.rev = rv ∧
        (loop.options.rev = 0 ∨ loop.options.rev = rv) := by
      rcases hfresh.version with ⟨hreturned, hrev⟩ | ⟨hpos, hrev⟩
      · rw [if_pos hreturned] at hrv
        rw [← hrv, hrev, readRevision, if_pos le_rfl]
        exact ⟨w.etcd.positive, le_rfl, rfl, .inl rfl⟩
      · rw [if_neg hpos.ne'] at hrv
        rw [← hrv, hrev, readRevision, if_neg hpos.not_ge]
        exact ⟨hpos, Int64.not_lt.mp (hrev ▸ hfuture), rfl, .inr rfl⟩
    obtain ⟨hpos, hpres, hread, hrev⟩ := hver
    obtain ⟨_, hfront⟩ := s.keyPrefix_eq_append first.key
    refine h.read hpaging hlimit hready hrv.symm hrev (by rw [hread]) ⟨hpos, hpres, ?_, [], ?_, ?_, ?_⟩
    · rw [hfresh.pages_eq]
      exact fun _ hpage => absurd hpage not_mem_nil
    · rw [hfresh.key, hready.rangeEnd, listed, hfront, range_under, nil_append]
    · rw [hfresh.reads_eq]
      exact le_refl _
    · rw [hfresh.pages_eq, hfresh.items]
      rfl

theorem Good.next {turn : ListTurn} (hen : w.Enabled turn) (hsteady : w.Steady turn) :
    s.Good first (reads + if turn.isRead then 1 else 0) (s.next w turn) := by
  cases turn with
  | commit revision snapshot => exact h.commit revision snapshot
  | read =>
    obtain ⟨loop, hloop⟩ := hen
    have hstanding := h.standing
    rw [hloop] at hstanding
    obtain ⟨hready, hstate⟩ := hstanding
    simp only [ListStore.next, hloop, ListTurn.isRead, if_true]
    rcases hstate with hfresh | ⟨hrev, hread⟩
    · exact h.read_fresh hpaging hlimit hready hfresh
    · have hne : loop.returnedRV ≠ 0 := hread.positive.ne'
      refine h.read hpaging hlimit hready (if_neg hne).symm hrev ?_ hread
      rcases hrev with hrev | hrev
      · rw [hrev, readRevision, if_pos le_rfl]
        exact hsteady loop hloop hrev hne
      · rw [hrev, readRevision, if_neg hread.positive.not_ge]

end

/-! ### Every run -/

def IsVersion (resourceVersion : String) : Prop :=
  ∀ version, parseResourceVersion resourceVersion = .ok version → version.toNat < 2 ^ 63

theorem toInt64_pos {version : UInt64} (hpos : 0 < version) (hlt : version.toNat < 2 ^ 63) : 0 < version.toInt64 := by
  have hnat : 0 < version.toNat := UInt64.lt_iff_toNat_lt.mp hpos
  rw [← UInt64.ofNat_toNat (x := version), UInt64.toInt64_ofNat', lt_iff_toInt_lt, toInt_ofNat_of_lt hlt]
  simpa using hnat

theorem good_start (hpaging : s.pagingEnabled = true) (hlimit : 0 < first.limit) (htoken : first.continue_ = "")
    (hver : IsVersion first.resourceVersion) (etcd : Etcd) : s.Good first 0 (s.start etcd first) := by
  cases hparse : parseResourceVersion first.resourceVersion with
  | error err =>
    have hsend : s.send first = .failed (.badRequest ("invalid resource version: " ++ err)) := by
      simp [send, beginList, htoken, hparse]
    refine ⟨rfl, rfl, rfl, nofun, ?_⟩
    rw [start, hsend]
    exact .inl ⟨rfl, zero_le 1, _, .inl rfl⟩
  | ok fromRV =>
    have hpos : 0 < first.limit.toInt := lt_iff_toInt_lt.mp hlimit
    refine ⟨rfl, rfl, rfl, nofun, ?_⟩
    rw [start, send_first hpaging hlimit htoken hparse]
    refine ⟨⟨rfl, rfl, rfl, rfl, hpos⟩, .inl ⟨rfl, rfl, rfl, rfl, ?_⟩⟩
    by_cases hpos : 0 < fromRV
    · exact .inr ⟨toInt64_pos hpos (hver fromRV hparse), if_pos hpos⟩
    · obtain rfl : fromRV = 0 := by
        apply UInt64.toNat_inj.mp
        have := UInt64.not_lt.mp hpos
        exact le_zero.mp (UInt64.le_iff_toNat_le.mp this)
      exact .inl ⟨rfl, rfl⟩

/-- What a client has after some turns: pages of one revision, none with more items than the limit; after the
last page, all objects of the revision that match; a bounded number of reads; and an error only where etcd does
not have the revision that the request names, or at a value that cannot be read. -/
structure Consistent (s : ListStore α) (first : ListRequest α) (turns : List ListTurn) (w : Listing α)
    (rv : Int64) : Prop where
  reported : ∀ page ∈ w.pages, 0 < rv ∧ rv ≤ w.etcd.revision ∧ page.resourceVersion = Strconv.formatUint rv.toUInt64
  limited : ∀ page ∈ w.pages, page.items.length ≤ first.limit.toInt
  complete : w.progress = .finished →
    w.pages.flatMap Page.items = s.selected first.pred ((w.etcd.snapshot rv).under (s.keyPrefix first.key))
  reads : turns.countP ListTurn.isRead ≤ ((w.etcd.snapshot rv).under (s.keyPrefix first.key)).length + 1
  failed : ∀ err, w.progress = .failed err → (w.pages = [] ∧ ∃ text, err = .badRequest text ∨ err = .etcd text) ∨
      ∃ entry ∈ (w.etcd.snapshot rv).under (s.keyPrefix first.key), s.object entry = none

section
variable {turns : List ListTurn} (h : s.Good first (turns.countP ListTurn.isRead) w)
include h

/-- Before the first page, no revision is reported. -/
theorem Good.consistent_of_no_pages (hpages : w.pages = []) (hreads : turns.countP ListTurn.isRead ≤ 1)
    (hprog : w.progress ≠ .finished)
    (hfailed : ∀ err, w.progress = .failed err → ∃ text, err = .badRequest text ∨ err = .etcd text) :
    s.Consistent first turns w 0 where
  reported := by
    rw [hpages]
    exact nofun
  limited := h.limited
  complete := fun hfin => absurd hfin hprog
  reads := by omega
  failed := fun err herr => .inl ⟨hpages, hfailed err herr⟩

theorem Good.consistent_of_reading (hread : s.Reading first reads w.etcd w.pages rv items unread)
    (hreads : turns.countP ListTurn.isRead ≤ reads + 1) (hdone : w.progress = .finished → items = [] ∧ unread = [])
    (hfailed : ∀ err, w.progress = .failed err → ∃ entry ∈ unread, s.object entry = none) :
    s.Consistent first turns w rv := by
  obtain ⟨read, hlisted, hlen, hitems⟩ := hread.taken
  rw [listed] at hlisted
  refine ⟨fun page hpage => ⟨hread.positive, hread.present, hread.reported page hpage⟩, h.limited, ?_, ?_, ?_⟩
  · intro hfin
    obtain ⟨rfl, rfl⟩ := hdone hfin
    rw [append_nil] at hlisted hitems
    rw [hitems, hlisted]
  · rw [hlisted, length_append]
    omega
  · intro err herr
    obtain ⟨entry, hent, hnone⟩ := hfailed err herr
    exact .inr ⟨entry, hlisted ▸ mem_append_right _ hent, hnone⟩

theorem Good.consistent : ∃ rv, s.Consistent first turns w rv := by
  have hstanding := h.standing
  cases hprog : w.progress with
  | failed err =>
    rw [hprog] at hstanding
    rcases hstanding with ⟨hpages, hreads, hrefused⟩ | ⟨rv, _, _, hread, hent⟩
    · refine ⟨0, h.consistent_of_no_pages hpages hreads (by simp [hprog]) fun err' herr => ?_⟩
      cases hprog.symm.trans herr
      exact hrefused
    · exact ⟨rv, h.consistent_of_reading hread (by omega) (by simp [hprog]) fun _ _ => hent⟩
  | finished =>
    rw [hprog] at hstanding
    obtain ⟨_, rv, hread⟩ := hstanding
    exact ⟨rv, h.consistent_of_reading hread (by omega) (fun _ => ⟨rfl, rfl⟩) (by simp [hprog])⟩
  | listing loop =>
    rw [hprog] at hstanding
    rcases hstanding.2 with hfresh | ⟨-, hread⟩
    · refine ⟨0, h.consistent_of_no_pages hfresh.pages_eq ?_ (by simp [hprog]) (by simp [hprog])⟩
      rw [hfresh.reads_eq]
      exact zero_le 1
    · exact ⟨_, h.consistent_of_reading hread (le_succ _) (by simp [hprog]) (by simp [hprog])⟩

end

/-- A client that follows the tokens of `List`, with any writes between the reads that leave the keys a page
has still to read as the page found them: the pages are the matching objects of the revision they report, in
the order of the keys. A token leads back to its start key, unless the start key is not a clean path, and out
of the prefix it never leads. -/
theorem list_snapshot (s : ListStore α) (first : ListRequest α) (hpaging : s.pagingEnabled = true)
    (hlimit : 1 ≤ first.limit) (htoken : first.continue_ = "") (hversion : IsVersion first.resourceVersion)
    (etcd : Etcd) (turns : List ListTurn) (w : Listing α) (hrun : s.steadySystem.Run (s.start etcd first) turns w) :
    (∃ rv, s.Consistent first turns w rv) ∧
    (∀ start rv, (∃ token, s.encodeContinue (s.keyPrefix first.key ++ start) (s.keyPrefix first.key) rv = .ok token ∧
      s.decodeContinue token (s.keyPrefix first.key) = .ok (s.keyPrefix first.key ++ start, rv)) ↔
        rv ≠ 0 ∧ IsStart start) ∧
    ∀ token key rv, s.decodeContinue token (s.keyPrefix first.key) = .ok (key, rv) →
      hasPrefix key (s.keyPrefix first.key) := by
  refine ⟨?_, ?_, fun _ key _ => s.decodeContinue_prefix⟩
  · have hpositive : 0 < first.limit := by
      rw [le_iff_toInt_le] at hlimit
      rw [lt_iff_toInt_lt]
      have hone : (1 : Int64).toInt = 1 := rfl
      have hzero : (0 : Int64).toInt = 0 := rfl
      omega
    apply Good.consistent
    refine hrun.history (fun turns w => s.Good first (turns.countP ListTurn.isRead) w) ?_
      (good_start hpaging hpositive htoken hversion etcd)
    rintro turns w _ _ ⟨⟨henabled, hsteady⟩, rfl⟩ hgood
    rw [List.countP_append, List.countP_singleton]
    exact hgood.next hpaging hpositive henabled hsteady
  · obtain ⟨front, hfront⟩ := s.keyPrefix_eq_append first.key
    rw [hfront]
    exact s.decodeContinue_encodeContinue_iff front

end ListStore

/-! ### A store of flags -/

def mark (text : List Char) : List Char := text.flatMap fun c => ['c', c]

def unmark : List Char → List Char × List Char
  | 'c' :: c :: rest => ((unmark rest).1.cons c, (unmark rest).2)
  | _ :: rest => ([], rest)
  | [] => ([], [])

theorem unmark_mark (text rest : List Char) : unmark (mark text ++ ';' :: rest) = (text, rest) := by
  induction text with
  | nil => rfl
  | cons _ _ ih =>
    rw [mark, flatMap_cons, append_assoc]
    rw [mark] at ih
    simp [unmark, ih]

def flagStore : ListStore Bool where
  pathPrefix := "/registry"
  pagingEnabled := true
  transformFromStorage := fun data _ => .ok (data, false)
  decode := fun data => .ok ⟨data = [1], ""⟩
  marshal := fun token => String.ofList (mark token.apiVersion.toList ++ ';' ::
    (mark (Strconv.formatUint token.resourceVersion.toUInt64).toList ++ ';' :: token.startKey.toList))
  unmarshal := fun text =>
    let (apiVersion, rest) := unmark text.toList
    let (resourceVersion, startKey) := unmark rest
    match Strconv.parseUint (String.ofList resourceVersion) with
    | .error _ => .error "invalid character"
    | .ok version => .ok ⟨String.ofList apiVersion, version.toInt64, String.ofList startKey⟩
  unmarshal_marshal := by
    intro token
    simp only [String.toList_ofList, unmark_mark, String.ofList_toList, Strconv.parseUint_formatUint, toInt64_toUInt64]
  marshal_ne_empty := by
    intro token h
    have := congrArg String.toList h
    simp at this

def flagA : Entry := ⟨⟨[0], 1⟩, "/registry/flags/a"⟩
def flagB : Entry := ⟨⟨[1], 1⟩, "/registry/flags/b"⟩

def bothFlags : Snapshot := ⟨[flagA, flagB], by decide, by unfold IsStoreKey; decide⟩
def oneFlag : Snapshot := ⟨[flagA], by decide, by unfold IsStoreKey; decide⟩

def flagEtcd : Etcd := ⟨1, fun _ => bothFlags, by decide⟩

def setFlags : ListRequest Bool where
  key := "/flags"
  resourceVersion := ""
  pred :=
    { label := .everything
      field := .everything
      includeUninitialized := false
      getAttrs := fun flag => .ok (∅, ∅, !flag)
      indexFields := [] }
  limit := 1
  continue_ := ""

section Decidable
variable {α : Type} (progress : Progress α)

instance listingDecidable : Decidable (∃ loop, progress = .listing loop) :=
  match progress with
  | .listing loop => .isTrue ⟨loop, rfl⟩
  | .finished | .failed _ => .isFalse (by simp)

instance whileListingDecidable (P : Loop α → Prop) [∀ loop, Decidable (P loop)] :
    Decidable (∀ loop, progress = .listing loop → P loop) :=
  match progress with
  | .listing loop => decidable_of_iff (P loop) (by simp)
  | .finished | .failed _ => .isTrue (by simp)

instance enabledDecidable (w : Listing α) (turn : ListTurn) : Decidable (w.Enabled turn) := by
  cases turn <;> dsimp only [Listing.Enabled] <;> infer_instance

instance steadyDecidable (w : Listing α) (turn : ListTurn) : Decidable (w.Steady turn) := by
  cases turn <;> dsimp only [Listing.Steady] <;> infer_instance

end Decidable

/-- Without a write between the reads, the page has the second flag. -/
theorem list_snapshot_flags : ∃ w, flagStore.steadySystem.Run (flagStore.start flagEtcd setFlags) [.read, .read] w ∧
      w.pages = [⟨[⟨true, "1"⟩], "1", ""⟩] ∧ ∃ rv, flagStore.Consistent setFlags [.read, .read] w rv := by
  have hrun : flagStore.steadySystem.Run (flagStore.start flagEtcd setFlags) [.read, .read] _ :=
    System.run_foldl (by decide +kernel)
  have hversion : ListStore.IsVersion setFlags.resourceVersion := by
    intro version hparse
    cases hparse
    decide
  exact ⟨_, hrun, by decide +kernel,
    (ListStore.list_snapshot flagStore setFlags rfl (by decide) rfl hversion flagEtcd _ _ hrun).1⟩

/-- The second flag is removed between the two reads of a page: the page has neither flag, and it reports the
revision at which both were there. -/
theorem list_snapshot_mixed :
    ∃ turns w, flagStore.listSystem.Run (flagStore.start flagEtcd setFlags) turns w ∧ w.progress = .finished ∧
      ¬ ∃ rv : Int64, (∀ page ∈ w.pages, page.resourceVersion = Strconv.formatUint rv.toUInt64) ∧
        w.pages.flatMap Page.items =
          flagStore.selected setFlags.pred ((w.etcd.snapshot rv).under (flagStore.keyPrefix setFlags.key)) := by
  have hrun : flagStore.listSystem.Run (flagStore.start flagEtcd setFlags) [.read, .commit 2 oneFlag, .read] _ :=
    System.run_foldl (by decide +kernel)
  refine ⟨_, _, hrun, by decide +kernel, ?_⟩
  generalize hw : List.foldl flagStore.next _ _ = w
  have hpages : w.pages = [⟨[], "1", ""⟩] := by
    rw [← hw]
    decide +kernel
  have hselected : flagStore.selected setFlags.pred ((w.etcd.snapshot 1).under (flagStore.keyPrefix setFlags.key)) =
      [⟨true, "1"⟩] := by
    rw [← hw]
    decide +kernel
  intro ⟨rv, hreported, hitems⟩
  have hformat : Strconv.formatUint rv.toUInt64 = "1" := by
    rw [hpages] at hreported
    exact (hreported _ (List.mem_singleton_self _)).symm
  have hparse : Except.ok rv.toUInt64 = Strconv.parseUint "1" := by rw [← hformat, Strconv.parseUint_formatUint]
  have hrv : rv = 1 := by
    rw [← toInt64_toUInt64 rv, Except.ok.inj (hparse.trans (show Strconv.parseUint "1" = .ok 1 by decide +kernel))]
    rfl
  rw [hrv, hselected, hpages] at hitems
  exact absurd hitems (by decide)

end LeanKube.Etcd3
