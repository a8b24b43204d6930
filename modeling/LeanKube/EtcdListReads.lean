import LeanKube.EtcdList
import LeanKube.LexRange

/-! The parts of `store.List`: the keys that a range read gets, the tokens, and what the loop over a
response takes from it. -/

namespace LeanKube.Etcd3
open List Storage GoStrings GoPath

/-! ### Ranges of keys -/

theorem append_zero_le_iff (key other : String) : key ++ "\x00" ≤ other ↔ key < other := by
  rw [String.le_iff_toList_le, String.lt_iff_toList_lt, String.toList_append]
  exact LexRange.append_bot_le_iff (fun c => Char.le_def.mpr (UInt32.zero_le)) _ _

theorem range_prefix_iff (front key : String) :
    front ++ "/" ≤ key ∧ key < getPrefixRangeEnd (front ++ "/") ↔ hasPrefix key (front ++ "/") := by
  have hend : (getPrefixRangeEnd (front ++ "/")).toList = front.toList ++ ['0'] := by
    rw [getPrefixRangeEnd, String.toList_append, show "/".toList = ['/'] from rfl, List.getLast?_concat]
    simp
  have hnext (c : Char) (hle : '/' ≤ c) (hlt : c < '0') : c = '/' := by
    rw [Char.le_def] at hle
    rw [Char.lt_def] at hlt
    apply Char.ext
    rw [UInt32.le_iff_toNat_le] at hle
    rw [UInt32.lt_iff_toNat_lt] at hlt
    apply UInt32.toNat_inj.mp
    have hslash : ('/' : Char).val.toNat = 47 := rfl
    have hzero : ('0' : Char).val.toNat = 48 := rfl
    omega
  rw [String.le_iff_toList_le, String.lt_iff_toList_lt, hend, String.toList_append, hasPrefix_iff, String.toList_append]
  exact LexRange.range_iff_prefix (by decide) hnext _ _

namespace Snapshot
variable (snapshot : Snapshot) {key rangeEnd : String}

theorem range_under (front : String) :
    snapshot.range (front ++ "/") (getPrefixRangeEnd (front ++ "/")) = snapshot.under (front ++ "/") := by
  apply filter_congr
  intro entry _
  rw [Bool.eq_iff_iff, decide_eq_true_iff, range_prefix_iff]

theorem range_sorted (key rangeEnd : String) : (snapshot.range key rangeEnd).Pairwise fun a b => a.key < b.key :=
  snapshot.sorted.filter _

theorem range_after {front back : List Entry} {last : Entry} (h : snapshot.range key rangeEnd = front ++ last :: back) :
    snapshot.range (last.key ++ "\x00") rangeEnd = back := by
  have hsorted := snapshot.range_sorted key rangeEnd
  have hlast : last ∈ snapshot.range key rangeEnd := h ▸ mem_append_right _ mem_cons_self
  have hkey : key ≤ last.key := (of_decide_eq_true (mem_filter.mp hlast).2).1
  have hsub : snapshot.range (last.key ++ "\x00") rangeEnd =
      (snapshot.range key rangeEnd).filter fun entry => last.key < entry.key := by
    rw [range, range, filter_filter]
    apply filter_congr
    intro entry _
    rw [← Bool.decide_and, decide_eq_decide, append_zero_le_iff]
    exact ⟨fun h => ⟨h.1, hkey.trans h.1.le, h.2⟩, fun h => ⟨h.1, h.2.2⟩⟩
  rw [hsub, h, filter_append]
  rw [h, pairwise_append, pairwise_cons] at hsorted
  have hfront : front.filter (fun entry => decide (last.key < entry.key)) = [] := by
    rw [filter_eq_nil_iff]
    intro entry hent
    rw [decide_eq_true_iff]
    exact (hsorted.2.2 entry hent last mem_cons_self).not_gt
  have hback : back.filter (fun entry => decide (last.key < entry.key)) = back := by
    rw [filter_eq_self]
    intro entry hent
    exact decide_eq_true (hsorted.2.1.1 entry hent)
  rw [hfront, nil_append, filter_cons_of_neg (by simp), hback]

end Snapshot

namespace Etcd
variable {etcd : Etcd}

theorem commit_revision_le (revision : Int64) (snapshot : Snapshot) :
    etcd.revision ≤ (etcd.commit revision snapshot).revision := by
  rw [commit]
  split
  · rename_i h
    exact h.le
  · exact le_rfl

theorem commit_snapshot {rev : Int64} (h : rev ≤ etcd.revision) (revision : Int64) (snapshot : Snapshot) :
    (etcd.commit revision snapshot).snapshot rev = etcd.snapshot rev := by
  rw [commit]
  split
  · exact if_pos h
  · rfl

theorem get_spec (key : String) {options : GetOptions} (hlimit : 0 < options.limit)
    (hrev : ¬ etcd.revision < options.rev) :
    ∃ kvs rest, (etcd.snapshot (etcd.readRevision options.rev)).range key options.rangeEnd = kvs ++ rest ∧
      etcd.get key options = .ok { kvs, more := decide (rest ≠ []), revision := etcd.revision } ∧
      (rest ≠ [] → kvs ≠ []) := by
  have hpos : 0 < options.limit.toInt := Int64.lt_iff_toInt_lt.mp hlimit
  generalize hrange : (etcd.snapshot (etcd.readRevision options.rev)).range key options.rangeEnd = all
  by_cases hmore : 0 < options.limit ∧ options.limit.toInt < all.length
  · refine ⟨all.take options.limit.toInt.toNat, all.drop options.limit.toInt.toNat, (take_append_drop _ _).symm, ?_, ?_⟩
    · rw [get, if_neg hrev, hrange]
      simp only [if_pos hmore]
      have hrest : all.drop options.limit.toInt.toNat ≠ [] := by
        rw [Ne, drop_eq_nil_iff]
        omega
      rw [decide_eq_true hrest]
    · intro _ hnil
      rw [take_eq_nil_iff] at hnil
      rcases hnil with hzero | hnil
      · omega
      · rw [hnil] at hmore
        simp only [length_nil] at hmore
        omega
  · refine ⟨all, [], (append_nil _).symm, ?_, fun h => absurd rfl h⟩
    rw [get, if_neg hrev, hrange]
    simp only [if_neg hmore, ne_eq, not_true_eq_false, decide_false]

end Etcd

/-! ### Tokens -/

theorem IsStoreKey.isNames {front rest : String} (h : IsStoreKey (front ++ "/" ++ rest)) :
    GoPath.IsNames rest.toList := by
  have hchars : (front ++ "/" ++ rest).toList = front.toList ++ '/' :: rest.toList := by
    rw [String.toList_append, String.toList_append, append_assoc]
    rfl
  have hclean : cleanChars (front.toList ++ '/' :: rest.toList) = front.toList ++ '/' :: rest.toList := by
    have := congrArg String.toList h.2
    rwa [clean, String.toList_ofList, hchars] at this
  have hroot := hasPrefix_iff.mp h.1
  rw [hchars] at hroot
  cases hfront : front.toList with
  | nil =>
    rw [hfront] at hclean
    exact cleanChars_cons_eq_iff.mp hclean
  | cons c =>
    rw [hfront, cons_append] at hroot hclean
    obtain rfl : '/' = c := (cons_prefix_cons.mp hroot).1
    exact (cleanChars_cons_eq_iff.mp hclean).right

namespace ListStore
variable {α : Type} (s : ListStore α) (front start : String) {rv : Int64} {kvs : List Entry}

theorem decodeContinue_prefix {token keyPrefix key : String}
    (h : s.decodeContinue token keyPrefix = .ok (key, rv)) : hasPrefix key keyPrefix := by
  cases hunmarshal : s.unmarshal token with
  | error => simp [decodeContinue, hunmarshal] at h
  | ok c =>
    simp only [decodeContinue, hunmarshal] at h
    generalize (if !hasPrefix c.startKey "/" then "/" ++ c.startKey else c.startKey) = start at h
    split_ifs at h
    cases h
    exact hasPrefix_append _ _

/-- A start key, without its prefix, that a token keeps: a clean path that does not start with a separator. -/
def IsStart (start : String) : Prop :=
  start ≠ "" ∧ ¬ hasPrefix start "/" ∧ GoPath.clean ("/" ++ start) = "/" ++ start

theorem encodeContinue_append (rv : Int64) : s.encodeContinue (front ++ "/" ++ start) (front ++ "/") rv =
      .ok (s.marshal { apiVersion := "meta.k8s.io/v1", resourceVersion := rv, startKey := start }) := by
  rw [encodeContinue, trimPrefix_append, if_neg]
  intro h
  have hlen := congrArg String.length h
  rw [String.length_append, String.length_append] at hlen
  have hone : "/".length = 1 := rfl
  omega

theorem decodeContinue_encodeContinue_iff (rv : Int64) :
    (∃ token, s.encodeContinue (front ++ "/" ++ start) (front ++ "/") rv = .ok token ∧
      s.decodeContinue token (front ++ "/") = .ok (front ++ "/" ++ start, rv)) ↔ rv ≠ 0 ∧ IsStart start := by
  rw [encodeContinue_append]
  apply Iff.intro
  · intro ⟨token, htoken, hdec⟩
    cases htoken
    rw [decodeContinue, s.unmarshal_marshal] at hdec
    simp only [if_true] at hdec
    have hempty : start.length = 0 ↔ start = "" := String.length_eq_zero_iff
    split_ifs at hdec with hrv hlen hslash hclean hclean
    · simp only [Bool.not_eq_true'] at hslash
      exact ⟨hrv, fun h => hlen (hempty.mpr h), by simp [hslash], not_not.mp hclean⟩
    · -- a separator at the start is taken for the root and lost
      rw [not_not.mp hclean] at hdec
      have hlost := congrArg (fun result => result.1.length) (Except.ok.inj hdec)
      simp only [String.length_append, String.length_ofList, length_drop, String.length_toList] at hlost
      omega
  · intro ⟨hrv, hstart, hslash, hclean⟩
    refine ⟨_, rfl, ?_⟩
    rw [decodeContinue, s.unmarshal_marshal]
    have hlen : start.length ≠ 0 := fun h => hstart (String.length_eq_zero_iff.mp h)
    simp only [if_true, hrv, if_false, hlen, hslash, Bool.not_false, hclean, ne_eq, not_true_eq_false]
    simp

theorem IsStart.of_isStoreKey {front rest : String} (h : IsStoreKey (front ++ "/" ++ rest)) :
    IsStart (rest ++ "\x00") := by
  have hnames := h.isNames.append_singleton (c := '\x00') (by decide) (by decide)
  generalize hstart : rest ++ "\x00" = start
  have hchars : start.toList = rest.toList ++ ['\x00'] := by
    rw [← hstart, String.toList_append]
    rfl
  rw [← hchars] at hnames
  refine ⟨?_, ?_, ?_⟩
  · rintro rfl
    simp at hchars
  · rw [hasPrefix_iff]
    intro ⟨after, hafter⟩
    rw [← hafter] at hnames
    refine (hnames.resolve_left (by simp) [] ?_).1 rfl
    rw [show "/".toList ++ after = [] ++ '/' :: after from rfl, splitOn_append_cons_self]
    exact mem_append_left _ (by simp)
  · rw [clean, String.ofList_eq, String.toList_append]
    exact cleanChars_cons_eq_iff.mpr hnames

theorem decodeContinue_encodeContinue {front key : String} (hrv : rv ≠ 0) (hkey : IsStoreKey key)
    (hstart : hasPrefix key (front ++ "/")) :
    ∃ token, s.encodeContinue (key ++ "\x00") (front ++ "/") rv = .ok token ∧ token ≠ "" ∧
      s.decodeContinue token (front ++ "/") = .ok (key ++ "\x00", rv) := by
  obtain ⟨rest, hrest⟩ := hasPrefix_iff.mp hstart
  obtain rfl : key = front ++ "/" ++ String.ofList rest := by
    rw [← String.toList_inj, String.toList_append, String.toList_ofList, hrest]
  rw [String.append_assoc]
  obtain ⟨token, hencode, hdec⟩ :=
    (s.decodeContinue_encodeContinue_iff front _ rv).mpr ⟨hrv, IsStart.of_isStoreKey hkey⟩
  refine ⟨token, hencode, ?_, hdec⟩
  rw [encodeContinue_append] at hencode
  rw [← Except.ok.inj hencode]
  exact s.marshal_ne_empty _

/-! ### Filling a page -/

def object (entry : Entry) : Option (Object α) :=
  match s.transformFromStorage entry.value entry.key with
  | .error _ => none
  | .ok (data, _) =>
    match s.decode data with
    | .error _ => none
    | .ok obj => some (updateObject obj entry.modRevision.toUInt64)

variable (pred : SelectionPredicate α)

def selected (entries : List Entry) : List (Object α) :=
  (entries.filterMap s.object).filter fun obj =>
    match pred.matchesObject obj with
    | .ok true => true
    | _ => false

theorem selected_append (front back : List Entry) :
    s.selected pred (front ++ back) = s.selected pred front ++ s.selected pred back := by
  rw [selected, filterMap_append, filter_append]
  rfl

variable {pred : SelectionPredicate α} {limit : Int64} {entry : Entry} {rest : List Entry}
  {items : List (Object α)} {lastKey : String}

/-- An entry that cannot be read ends the loop, any other one is selected or passed. -/
theorem fill_cons (hroom : items.length < limit.toInt) :
    (s.object entry = none ∧ ∃ err, s.fill pred true limit (entry :: rest) items lastKey = .error err) ∨
      s.fill pred true limit (entry :: rest) items lastKey =
        s.fill pred true limit rest (items ++ s.selected pred [entry]) entry.key := by
  have hfull : ¬ (true = true ∧ limit.toInt ≤ items.length) := fun h => absurd h.2 (by omega)
  rw [fill, if_neg hfull]
  cases htransform : s.transformFromStorage entry.value entry.key with
  | error => exact .inl ⟨by simp [object, htransform], _, rfl⟩
  | ok read =>
    obtain ⟨data, stale⟩ := read
    cases hdec : s.decode data with
    | error err => exact .inl ⟨by simp [object, htransform, hdec], .decode err, by simp [appendListItem, hdec]⟩
    | ok decoded =>
      simp only [appendListItem, hdec, selected, filterMap_cons, object, htransform, filterMap_nil,
        filter_cons, filter_nil]
      cases hmatch : pred.matchesObject (updateObject decoded entry.modRevision.toUInt64) with
      | error => simp
      | ok matched => cases matched <;> simp

theorem length_selected_singleton (entry : Entry) : (s.selected pred [entry]).length ≤ 1 :=
  calc (s.selected pred [entry]).length ≤ ([entry].filterMap s.object).length := length_filter_le _ _
    _ ≤ [entry].length := length_filterMap_le _ _

/-- The loop takes the keys of a response up to the first one that cannot be read, or until the page is full. -/
theorem fill_cases (pred : SelectionPredicate α) (kvs : List Entry) (lastKey : String)
    (hitems : items.length ≤ limit.toInt) :
    (∃ err, s.fill pred true limit kvs items lastKey = .error err ∧ ∃ entry ∈ kvs, s.object entry = none) ∨
    ∃ front back, kvs = front ++ back ∧ s.fill pred true limit kvs items lastKey =
        .ok (items ++ s.selected pred front, (front.getLast?.map Entry.key).getD lastKey, decide (back ≠ [])) ∧
      (items ++ s.selected pred front).length ≤ limit.toInt ∧
      (back ≠ [] → limit.toInt ≤ (items ++ s.selected pred front).length) := by
  have hnone : items ++ s.selected pred [] = items := append_nil items
  induction kvs generalizing items lastKey with
  | nil => exact .inr ⟨[], [], rfl, by rw [hnone]; rfl, by rwa [hnone], fun h => absurd rfl h⟩
  | cons entry rest ih =>
    by_cases hroom : items.length < limit.toInt
    · rcases s.fill_cons hroom with ⟨hobj, err, herr⟩ | hrest
      · exact .inl ⟨err, herr, entry, mem_cons_self, hobj⟩
      · rw [hrest]
        have hitems' : (items ++ s.selected pred [entry]).length ≤ limit.toInt := by
          have hsingle : (s.selected pred [entry]).length ≤ 1 := s.length_selected_singleton entry
          rw [length_append]
          omega
        rcases ih entry.key hitems' (append_nil _) with ⟨err, herr, unreadable, hmem, hobj⟩ | ⟨front, back, hsplit,
          hfill, hfits⟩
        · exact .inl ⟨err, herr, unreadable, mem_cons_of_mem _ hmem, hobj⟩
        · rw [append_assoc, ← selected_append, singleton_append] at hfill hfits
          refine .inr ⟨entry :: front, back, by rw [hsplit, cons_append], ?_, hfits⟩
          rw [hfill, List.getLast?_cons]
          cases front.getLast? <;> rfl
    · refine .inr ⟨[], entry :: rest, rfl, ?_, by rwa [hnone], fun _ => by rw [hnone]; omega⟩
      rw [fill, if_pos ⟨rfl, by omega⟩, hnone]
      rfl

/-- What `List` does with a response, when `unread` are the keys of the range: an entry cannot be read; the page
has room and the loop goes on; the page ends with a token, where there is one; or all keys were read. -/
inductive After (request : ListRequest α) (loop : Loop α) (rv : Int64) (unread : List Entry) :
    Except ListError (Loop α ⊕ Page α) → Prop where
  | unreadable {err : ListError} {entry : Entry} (hmem : entry ∈ unread) (hnone : s.object entry = none) :
      After request loop rv unread (.error err)
  | again {front back : List Entry} {last : Entry} {items : List (Object α)} (hunread : unread = front ++ last :: back)
      (heq : items = loop.items ++ s.selected request.pred (front ++ [last]))
        (hroom : items.length < request.limit.toInt) :
      After request loop rv unread
        (.ok (.inl { loop with key := last.key ++ "\x00", returnedRV := rv, items, lastKey := last.key }))
  | token {front back : List Entry} {last : Entry} {items : List (Object α)}
      {result : Except ListError (Loop α ⊕ Page α)} (hunread : unread = front ++ last :: back)
      (heq : items = loop.items ++ s.selected request.pred (front ++ [last]))
        (hlen : items.length ≤ request.limit.toInt)
      (hresult : ∀ token, s.encodeContinue (last.key ++ "\x00") loop.keyPrefix rv = .ok token →
        result = .ok (.inr (updateList items rv.toUInt64 token))) : After request loop rv unread result
  | last {items : List (Object α)} (heq : items = loop.items ++ s.selected request.pred unread)
      (hlen : items.length ≤ request.limit.toInt) :
      After request loop rv unread (.ok (.inr (updateList items rv.toUInt64 "")))

theorem after_afterRead (request : ListRequest α) {loop : Loop α} {rest : List Entry}
    {revision : Int64} (hpaging : loop.paging = true)
    (hroom : loop.items.length < request.limit.toInt) (hkvs : rest ≠ [] → kvs ≠ [])
    (hrv : rv = if loop.returnedRV = 0 then revision else loop.returnedRV) :
    s.After request loop rv (kvs ++ rest)
      (s.afterRead request loop { kvs, more := decide (rest ≠ []), revision }) := by
  have hempty : ¬ (kvs.length = 0 ∧ decide (rest ≠ []) = true) := by
    rintro ⟨hlen, hrest⟩
    exact hkvs (of_decide_eq_true hrest) (length_eq_zero_iff.mp hlen)
  have hfills := s.fill_cases request.pred kvs loop.lastKey hroom.le
  rw [← hpaging] at hfills
  rw [afterRead, if_neg hempty]
  rcases hfills with ⟨err, hfill, entry, hmem, hnone⟩ | ⟨front, back, rfl, hfill, hlen, hback⟩
  · rw [hfill]
    exact .unreadable (mem_append_left _ hmem) hnone
  · rw [hfill]
    simp only [← hrv]
    by_cases hmore : (decide (rest ≠ []) || decide (back ≠ [])) = true
    · -- a key was taken: there is room for one, and the response is not empty
      have hfront : front ≠ [] := by
        rintro rfl
        rw [selected, filterMap_nil, filter_nil, append_nil] at hback
        have hnil : back = [] := by
          by_contra h
          have := hback h
          omega
        rw [hnil] at hmore hkvs
        exact hkvs (by simpa using hmore) rfl
      obtain ⟨init, last, rfl⟩ := (eq_nil_or_concat' front).resolve_left hfront
      have hunread : init ++ [last] ++ back ++ rest = init ++ last :: (back ++ rest) := by simp
      rw [List.getLast?_concat]
      by_cases hitems : (loop.items ++ s.selected request.pred (init ++ [last])).length < request.limit.toInt
      · rw [if_pos ⟨hmore, hpaging, hitems⟩]
        exact .again hunread rfl hitems
      · rw [if_neg fun h => hitems h.2.2, if_pos hmore]
        refine .token hunread rfl hlen fun token htoken => ?_
        rw [Option.map_some, Option.getD_some, htoken]
    · obtain ⟨rfl, rfl⟩ : rest = [] ∧ back = [] := by simpa using hmore
      rw [append_nil, append_nil, if_neg fun h => hmore h.1, if_neg hmore]
      exact .last rfl hlen

end ListStore
end LeanKube.Etcd3
