import LeanKube.RegistryStore

/-! The time at which an object is to be deleted. `ObjectMeta` promises that a `deletionTimestamp` that is set is
not unset and not moved later, and that the grace period is only shortened. `Delete` keeps the promise but for two
cases: an object with finalizers whose grace period is over is marked again with the current time, and the seconds
of a grace period may overflow when they become a duration. -/

namespace LeanKube.Registry
open Option Object
variable {β : Type} {e : Store β} {now : Int} {options : DeleteOptions}
  {obj new : Object β}

/-- What the stored metadata of an object that is being deleted may become. The generation counts up once, when
the deletion begins. -/
structure NotPostponed (old new : ObjectMeta) : Prop where
  timestamp : ∀ t, old.deletionTimestamp = some t → ∃ t' ≤ t, new.deletionTimestamp = some t'
  gracePeriod : old.deletionTimestamp.isSome → ∀ g, old.deletionGracePeriodSeconds = some g →
    ∃ g' ≤ g, new.deletionGracePeriodSeconds = some g'
  generation : new.generation = old.generation ∨
    old.deletionTimestamp = none ∧ new.deletionTimestamp.isSome ∧ new.generation = old.generation + 1

namespace NotPostponed

theorem refl (m : ObjectMeta) : NotPostponed m m where
  timestamp t h := ⟨t, le_rfl, h⟩
  gracePeriod _ g h := ⟨g, Int64.le_refl g, h⟩
  generation := .inl rfl

theorem isSome {old new : ObjectMeta} (h : NotPostponed old new) (hold : old.deletionTimestamp.isSome) :
    new.deletionTimestamp.isSome := by
  obtain ⟨t, ht⟩ := isSome_iff_exists.mp hold
  obtain ⟨t', -, ht'⟩ := h.timestamp t ht
  exact isSome_iff_exists.mpr ⟨t', ht'⟩

theorem trans {a b c : ObjectMeta} (hab : NotPostponed a b) (hbc : NotPostponed b c) : NotPostponed a c where
  timestamp t ht := by
    obtain ⟨t', hle, ht'⟩ := hab.timestamp t ht
    obtain ⟨t'', hle', ht''⟩ := hbc.timestamp t' ht'
    exact ⟨t'', hle'.trans hle, ht''⟩
  gracePeriod hset g hg := by
    obtain ⟨g', hle, hg'⟩ := hab.gracePeriod hset g hg
    obtain ⟨g'', hle', hg''⟩ := hbc.gracePeriod (hab.isSome hset) g' hg'
    exact ⟨g'', Int64.le_trans hle' hle, hg''⟩
  generation := by
    rcases hab.generation with hsame | ⟨hnone, hset, hnext⟩
    · rcases hbc.generation with hsame' | ⟨hnone', hset', hnext'⟩
      · exact .inl (hsame'.trans hsame)
      · -- The deletion begins at the second step, so it had not begun before the first.
        refine .inr ⟨?_, hset', hnext'.trans (congrArg (· + 1) hsame)⟩
        by_contra hne
        have := hab.isSome (isSome_iff_ne_none.mpr hne)
        rw [hnone'] at this
        exact absurd this (by decide)
    · rcases hbc.generation with hsame' | ⟨hnone', -, -⟩
      · exact .inr ⟨hnone, hbc.isSome hset, hsame'.trans hnext⟩
      · rw [hnone'] at hset
        exact absurd hset (by decide)

end NotPostponed

/-! ### What `Delete` writes -/

/-- `Delete` has no grace period to respect: it marks the object or deletes it at once. -/
def Store.Graceless (e : Store β) (m : ObjectMeta) : Prop :=
  e.deleteStrategy.checkGracefulDelete = none ∨
    m.deletionGracePeriodSeconds = none ∨ m.deletionGracePeriodSeconds = some 0

inductive Store.DeleteWrite (e : Store β) (now : Int) (options : DeleteOptions) (old new : ObjectMeta) : Prop where
  | begun (none : old.deletionTimestamp = none) (set : new.deletionTimestamp.isSome)
      (generation : new.generation = nextGeneration old.generation)
  | marked (t : Int) (set : old.deletionTimestamp = some t) (graceless : e.Graceless old)
      (pending : e.finalizersAfter old.finalizers options ≠ [])
      (timestamp : new.deletionTimestamp = some now) (gracePeriod : new.deletionGracePeriodSeconds = some 0)
      (generation : new.generation = old.generation)
  | shortened (t : Int) (current period : Int64) (set : old.deletionTimestamp = some t)
      (graceful : e.deleteStrategy.checkGracefulDelete ≠ none)
      (current_eq : old.deletionGracePeriodSeconds = some current) (current_ne : current ≠ 0)
      (period_eq : options.gracePeriodSeconds = some period) (less : period < current)
      (timestamp : new.deletionTimestamp = some (shortenedTimestamp t current period))
      (gracePeriod : new.deletionGracePeriodSeconds = some period)
      (generation : new.generation = old.generation)

namespace Store

theorem DeleteWrite.of_markAsDeleting (finalizers : List String)
    (hset : obj.metadata.deletionTimestamp.isSome →
      e.Graceless obj.metadata ∧ e.finalizersAfter obj.metadata.finalizers options ≠ []) :
    e.DeleteWrite now options obj.metadata
      (markAsDeleting now { obj with metadata.finalizers := finalizers }).metadata := by
  cases ht : obj.metadata.deletionTimestamp with
  | none => exact .begun ht rfl (by simp [markAsDeleting, setDeletion, ht])
  | some t =>
    obtain ⟨hgrace, hpend⟩ := hset (by rw [ht]; rfl)
    exact .marked t ht hgrace hpend rfl rfl (by simp [markAsDeleting, setDeletion, ht])

variable {deletion : Deletion β} {lastGraceful : Int64} {pendingFinalizers : Bool}
  {old : ObjectMeta}

section
variable (h : beforeDelete e.deleteStrategy now obj options = .ok deletion)
  (hpend : deletion.gracefulPending = false)
include h hpend

theorem graceless_of_beforeDelete (hgrace : deletion.graceful = false) : deletion.obj = obj ∧
      (obj.metadata.deletionTimestamp.isSome → e.Graceless obj.metadata ∧ deletion.options = options) := by
  rcases beforeDelete_eq_ok h with ⟨hcheck, rfl⟩ | ⟨check, t, -, -, rfl⟩ | ⟨check, -, ht, rfl⟩
  · exact ⟨rfl, fun _ => ⟨.inl hcheck, rfl⟩⟩
  · rcases shortenDeletion_cases obj t options with ⟨hperiod, hd⟩ | ⟨hd, -⟩ | ⟨_, _, -, -, -, -, hd⟩
    · rw [hd]
      exact ⟨rfl, fun _ => ⟨.inr hperiod, rfl⟩⟩
    · simp [hd] at hpend
    · simp [hd] at hgrace
  · refine ⟨?_, fun hset => absurd hset (by simp [ht])⟩
    rw [beginDeletion] at hgrace ⊢
    simp only at hgrace ⊢
    split_ifs at hgrace ⊢
    rfl

theorem deleteWrite_of_beforeDelete (hgrace : deletion.graceful = true) :
    e.DeleteWrite now options obj.metadata deletion.obj.metadata := by
  rcases beforeDelete_eq_ok h with ⟨-, rfl⟩ | ⟨check, t, hcheck, ht, rfl⟩ | ⟨check, -, ht, rfl⟩
  · simp at hgrace
  · rcases shortenDeletion_cases obj t options with ⟨-, hd⟩ | ⟨hd, -⟩ |
      ⟨current, period, hcur, hne, hperiod, hlt, hd⟩
    · simp [hd] at hgrace
    · simp [hd] at hpend
    · rw [hd]
      exact .shortened t current period ht (by simp [hcheck]) hcur hne hperiod hlt rfl rfl rfl
  · rw [beginDeletion] at hgrace ⊢
    simp only at hgrace ⊢
    split_ifs at hgrace ⊢
    exact .begun ht rfl rfl

end

theorem deleteWrite_of_tryDelete (h : e.tryDelete now options obj = .updated new pendingFinalizers lastGraceful) :
    e.DeleteWrite now options obj.metadata new.metadata := by
  obtain ⟨deletion, hbefore, hpend, hfins, -, -, ⟨hgrace, hne, hnew⟩ | ⟨hgrace, hnew⟩⟩ := tryDelete_updated h
  · obtain ⟨hobj, hset⟩ := graceless_of_beforeDelete hbefore hpend hgrace
    rw [hnew, hobj]
    refine DeleteWrite.of_markAsDeleting _ fun hsome => ?_
    obtain ⟨hgraceless, hoptions⟩ := hset hsome
    rw [hfins, hoptions] at hne
    exact ⟨hgraceless, hne⟩
  · rw [hnew]
    cases deleteWrite_of_beforeDelete hbefore hpend hgrace with
    | begun hnone hset hgen => exact .begun hnone hset hgen
    | marked t h₁ h₂ h₃ h₄ h₅ h₆ => exact .marked t h₁ h₂ h₃ h₄ h₅ h₆
    | shortened t current period h₁ h₂ h₃ h₄ h₅ h₆ h₇ h₈ h₉ =>
      exact .shortened t current period h₁ h₂ h₃ h₄ h₅ h₆ h₇ h₈ h₉

/-! ### When the time is kept -/

/-- `Delete` with these options keeps the time `t` of a deletion that has begun: where it marks the object again
the current time is not later, and where it shortens the grace period so is the time that it computes. -/
structure KeepsTime (e : Store β) (now : Int) (options : DeleteOptions) (m : ObjectMeta) (t : Int) : Prop where
  marked : e.Graceless m → e.finalizersAfter m.finalizers options ≠ [] →
    truncate now ≤ t ∧ ∀ g, m.deletionGracePeriodSeconds = some g → 0 ≤ g
  shortened : e.deleteStrategy.checkGracefulDelete ≠ none → ∀ current period,
    m.deletionGracePeriodSeconds = some current → current ≠ 0 → options.gracePeriodSeconds = some period →
    period < current → truncate (shortenedTimestamp t current period) ≤ t

theorem Graceless.eq_zero {m : ObjectMeta} {current : Int64} (h : e.Graceless m)
    (hgrace : e.deleteStrategy.checkGracefulDelete ≠ none)
    (hcur : m.deletionGracePeriodSeconds = some current) : current = 0 := by
  rcases h with h | h | h
  · exact absurd h hgrace
  · simp [hcur] at h
  · simpa [hcur] using h

theorem DeleteWrite.notPostponed_iff {t : Int} {version : Nat}
    (h : e.DeleteWrite now options old new.metadata) (ht : old.deletionTimestamp = some t) :
    NotPostponed old (new.encode version).metadata ↔ e.KeepsTime now options old t := by
  cases h with
  | begun hnone => simp [hnone] at ht
  | marked _ _ hgraceless hpend htimestamp hperiod hgen =>
    constructor
    · intro hkept
      refine ⟨fun _ _ => ⟨?_, fun g hg => ?_⟩, fun hgrace current _ hcur hne => ?_⟩
      · obtain ⟨t'', hle, ht''⟩ := hkept.timestamp t ht
        rw [encode_deletionTimestamp, htimestamp] at ht''
        exact (some.inj ht'').trans_le hle
      · obtain ⟨_, hle, hg'⟩ := hkept.gracePeriod (by rw [ht]; rfl) g hg
        rw [encode_deletionGracePeriodSeconds, hperiod] at hg'
        exact (some.inj hg') ▸ hle
      · exact absurd (hgraceless.eq_zero hgrace hcur) hne
    · intro hkeeps
      obtain ⟨hle, hnn⟩ := hkeeps.marked hgraceless hpend
      refine ⟨fun t'' ht'' => ⟨truncate now, ?_, by simp [htimestamp]⟩, fun _ g hg => ⟨0, hnn g hg, hperiod⟩, .inl hgen⟩
      rwa [← some.inj (ht.symm.trans ht'')]
  | shortened t' current period hset hgrace hcur hne hperiod hlt htimestamp hnew hgen =>
    obtain rfl : t' = t := some.inj (hset.symm.trans ht)
    constructor
    · intro hkept
      refine ⟨fun hgraceless _ => absurd (hgraceless.eq_zero hgrace hcur) hne, fun _ _ _ hcur' _ hperiod' _ => ?_⟩
      obtain ⟨t'', hle, ht''⟩ := hkept.timestamp t' ht
      rw [encode_deletionTimestamp, htimestamp] at ht''
      rw [← some.inj (hcur.symm.trans hcur'), ← some.inj (hperiod.symm.trans hperiod')]
      exact (some.inj ht'').trans_le hle
    · intro hkeeps
      have hle := hkeeps.shortened hgrace current period hcur hne hperiod hlt
      refine ⟨fun t'' ht'' => ⟨_, ?_, by simp [htimestamp]; rfl⟩, fun _ g hg => ⟨period, ?_, hnew⟩, .inl hgen⟩
      · rwa [← some.inj (ht.symm.trans ht'')]
      · rw [← some.inj (hcur.symm.trans hg)]
        exact Int64.le_of_lt hlt

theorem DeleteWrite.notPostponed_of_none {version : Nat}
    (h : e.DeleteWrite now options old new.metadata) (hnone : old.deletionTimestamp = none) :
    NotPostponed old (new.encode version).metadata := by
  cases h with
  | marked t hset => simp [hnone] at hset
  | shortened t _ _ hset => simp [hnone] at hset
  | begun _ hset hgen =>
    refine ⟨fun t ht => absurd ht (by simp [hnone]), fun h => absurd h (by simp [hnone]), ?_⟩
    rw [encode_generation, hgen, nextGeneration]
    split_ifs
    · exact .inr ⟨hnone, by simpa using hset, rfl⟩
    · exact .inl rfl

end Store

/-! ### Runs -/

/-- The storage holds no object that was not there before, and the deletion of the object is not postponed. -/
def Storage.NotPostponed (old new : Storage β) : Prop :=
  ∀ obj', new.object = some obj' → ∃ obj, old.object = some obj ∧ Registry.NotPostponed obj.metadata obj'.metadata

theorem Storage.NotPostponed.refl (s : Storage β) : s.NotPostponed s :=
  fun obj hobj => ⟨obj, hobj, .refl obj.metadata⟩

theorem Storage.NotPostponed.trans {a b c : Storage β} (hab : a.NotPostponed b) (hbc : b.NotPostponed c) :
    a.NotPostponed c := by
  intro obj'' hobj''
  obtain ⟨obj', hobj', h'⟩ := hbc obj'' hobj''
  obtain ⟨obj, hobj, h⟩ := hab obj' hobj'
  exact ⟨obj, hobj, h.trans h'⟩

namespace Store

structure Accepts (options : DeleteOptions) (preconditionUID : Option String) (uid : String) : Prop where
  preconditions : checkPreconditions preconditionUID uid = .ok ()
  valid : validateDeleteOptions options = []
  optionsUID : ∀ uid' ∈ options.preconditionUID, uid' = uid
  real : isDryRun options.dryRun = false

variable {ι : Type} [DecidableEq ι] [DecidableEq β]

/-- A step that, if it is the update of a call of `Delete`, keeps the time of a deletion that has begun. -/
def OnTime (e : Store β) (s : State ι β) : Turn ι β → Prop
  | .delete _ _ _ | .update _ _ => True
  | .resume i now => ∀ options uid obj t, s.phase i = .updating options uid → s.storage.object = some obj →
      Accepts options uid obj.metadata.uid → obj.metadata.deletionTimestamp = some t →
      e.KeepsTime now options obj.metadata t

theorem next_notPostponed {s : State ι β} {turn : Turn ι β} (hdel : turn.isDelete) (h : e.OnTime s turn) :
    s.storage.NotPostponed (e.next s turn).storage := by
  have hchanges := e.next_changes s turn
  generalize (e.next s turn).storage = storage at hchanges ⊢
  cases hchanges with
  | same => exact .refl s.storage
  | updated => exact absurd hdel Bool.false_ne_true
  | removed => exact fun _ hobj => nomatch hobj
  | deleting _ now options uid obj _ _ _ hphase hobj hcheck hreal htry =>
    intro _ hnew
    obtain ⟨_, rfl⟩ := Storage.of_write hnew
    obtain ⟨_, hbefore, -⟩ := tryDelete_updated htry
    obtain ⟨hvalid, huid⟩ := valid_of_beforeDelete hbefore
    have hdel := deleteWrite_of_tryDelete htry
    refine ⟨obj, hobj, ?_⟩
    cases ht : obj.metadata.deletionTimestamp with
    | none => exact hdel.notPostponed_of_none ht
    | some t => exact (hdel.notPostponed_iff ht).mpr (h options uid obj t hphase hobj ⟨hcheck, hvalid, huid, hreal⟩ ht)

/-- In every run of calls of `Delete`, one after the other or interleaved, each of which keeps the time of a
deletion that has begun, the deletion of the object is not postponed: from any state of the run to any later one
the timestamp stays set and is not later, the grace period does not grow, and the generation counts up at most
once. -/
theorem run_notPostponed {s t : State ι β} {turns : List (Turn ι β)}
    (h : (e.requests fun s turn => turn.isDelete ∧ e.OnTime s turn).Run s turns t) :
    s.storage.NotPostponed t.storage := by
  refine h.invariant (fun t => s.storage.NotPostponed t.storage) ?_ (.refl s.storage)
  rintro m _ _ ⟨⟨-, hdelete, hontime⟩, rfl⟩ hm
  exact hm.trans (next_notPostponed hdelete hontime)

end Store

def gracefulStore : Store Unit :=
  { plainStore with
    deleteStrategy := ⟨some fun _ options => (options.gracePeriodSeconds.isSome, options), none, by
      rintro _ ⟨rfl⟩ _ _ h
      exact h⟩ }

def deletedIn30 : State Unit Unit :=
  [Turn.delete () 0 (some { gracePeriodSeconds := some 30 }), .resume () 0].foldl gracefulStore.next
    (idle { uid := "a" })

/-- Five seconds later the grace period is shortened to 10 seconds, and the time of the deletion with it. -/
theorem run_notPostponed_shortened : ∃ t : State Unit Unit, deletedIn30.storage.NotPostponed t.storage ∧
      deletedIn30.storage.object.map (fun obj => obj.metadata.deletionTimestamp) = some (some 30000000000) ∧
      t.storage.object.map (fun obj => obj.metadata.deletionTimestamp) = some (some 10000000000) := by
  have hontime : gracefulStore.OnTime
      (gracefulStore.next deletedIn30 (.delete () 5000000000 (some { gracePeriodSeconds := some 10 })))
      (.resume () 5000000000) := by
    rintro _ _ _ _ ⟨rfl⟩ ⟨rfl⟩ - ⟨rfl⟩
    refine ⟨?_, ?_⟩
    · rintro (h | h | h)
      all_goals exact absurd h (by decide)
    · rintro _ _ _ ⟨rfl⟩ _ ⟨rfl⟩ -
      decide +kernel
  have hallowed : System.Allowed
      (fun s turn => s.enabled turn ∧ turn.isDelete ∧ gracefulStore.OnTime s turn) gracefulStore.next deletedIn30
      [.delete () 5000000000 (some { gracePeriodSeconds := some 10 }), .resume () 5000000000] :=
    ⟨⟨rfl, rfl, trivial⟩, ⟨rfl, rfl, hontime⟩, trivial⟩
  exact ⟨_, Store.run_notPostponed (System.run_foldl hallowed), by decide +kernel, by decide +kernel⟩

/-- An object with a finalizer is deleted at the time 0, and again ten seconds later: its deletion is moved to
the second time. -/
theorem deletion_moved_later : ∃ (s m t : State Unit Unit) (first second : List (Turn Unit Unit)),
      (plainStore.requests fun _ turn => turn.isDelete).Run s first m ∧
      (plainStore.requests fun _ turn => turn.isDelete).Run m second t ∧
      m.storage.object.map (fun obj => obj.metadata.deletionTimestamp) = some (some 0) ∧
      t.storage.object.map (fun obj => obj.metadata.deletionTimestamp) = some (some 10000000000) := by
  refine ⟨idle { uid := "a", finalizers := ["example.com/guard"] }, _, _,
    [.delete () 0 none, .resume () 0], [.delete () 10000000000 none, .resume () 10000000000],
    System.run_foldl ?_, System.run_foldl ?_, ?_, ?_⟩ <;> decide +kernel

end LeanKube.Registry
