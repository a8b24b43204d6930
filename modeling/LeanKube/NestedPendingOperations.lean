import Mathlib.Data.List.Perm.Subperm
import LeanKube.Transition

/-! Operations on volumes (`pkg/volume/util/nestedpendingoperations`). Started operations run in goroutines of their
own; the list of records decides which calls of `Run` start one. A lookup takes the first record that matches, pending
or not, so that operations exclude each other only in runs where no failed record hides a pending one. -/

namespace LeanKube.NestedPending
open List Option

structure ExponentialBackoff where
  lastError : Option String
  lastErrorTime : Int
  durationBeforeRetry : Int
  deriving DecidableEq

def initialDurationBeforeRetry : Int := 500000000

def maxDurationBeforeRetry : Int := 122000000000

namespace ExponentialBackoff
variable (expBackoff : ExponentialBackoff)

def safeToRetry (now : Int) : Bool :=
  !decide (now - expBackoff.lastErrorTime ≤ expBackoff.durationBeforeRetry)

def update (err : String) (now : Int) : ExponentialBackoff where
  lastError := some err
  lastErrorTime := now
  durationBeforeRetry :=
    if expBackoff.durationBeforeRetry = 0 then initialDurationBeforeRetry
    else if 2 * expBackoff.durationBeforeRetry > maxDurationBeforeRetry then maxDurationBeforeRetry
    else 2 * expBackoff.durationBeforeRetry

end ExponentialBackoff

structure Operation where
  volumeName : String
  podName : String
  operationPending : Bool
  expBackoff : ExponentialBackoff
  deriving DecidableEq

variable (op : Operation)

def Operation.name : String × String := (op.volumeName, op.podName)

def Operation.matchesName (volumeName podName : String) (op : Operation) : Bool :=
  op.volumeName = volumeName ∧ (op.podName = "" ∨ podName = "" ∨ op.podName = podName)

variable (operations : List Operation)

/-- `isOperationExists`: the first record that matches; none for the empty volume name. -/
def isOperationExists (volumeName podName : String) : Option Nat :=
  if volumeName = "" then none else operations.findIdx? (Operation.matchesName volumeName podName)

def getOperation (volumeName podName : String) : Option Nat :=
  operations.findIdx? fun op => op.name = (volumeName, podName)

def removeAt (opIndex : Nat) : List Operation :=
  (operations.getLast?.elim operations (operations.set opIndex)).dropLast

def deleteOperation (volumeName podName : String) : Option (List Operation) :=
  (getOperation operations volumeName podName).map (removeAt operations)

inductive RunError where
  | alreadyExists (volumeName podName : String)
  | exponentialBackoff (volumeName podName : String) (expBackoff : ExponentialBackoff)
  deriving DecidableEq

def run (volumeName podName : String) (now : Int) : Except RunError (List Operation) :=
  match (isOperationExists operations volumeName podName).bind fun i => operations[i]?.map (i, ·) with
  | some (i, previousOp) =>
    if previousOp.operationPending then .error (.alreadyExists volumeName podName)
    else if previousOp.expBackoff.safeToRetry now then
      .ok (operations.set i ⟨volumeName, podName, true, previousOp.expBackoff⟩)
    else .error (.exponentialBackoff volumeName podName previousOp.expBackoff)
  | none => .ok (operations ++ [⟨volumeName, podName, true, ⟨none, 0, 0⟩⟩])

def Operation.fail (err : String) (now : Int) : Operation :=
  { op with expBackoff := op.expBackoff.update err now, operationPending := false }

/-- `operationComplete`; a panic of the operation is an error here (`RecoverFromPanic`). -/
def operationComplete (exponentialBackOffOnError : Bool) (operations : List Operation) (volumeName podName : String)
    (err : Option String) (now : Int) : Option (List Operation) :=
  match err, exponentialBackOffOnError with
  | some err, true =>
    some ((getOperation operations volumeName podName).elim operations fun i => operations.modify i (·.fail err now))
  | _, _ => deleteOperation operations volumeName podName

/-! ### The goroutines -/

structure World where
  operations : List Operation
  running : List (String × String)
  panicked : Bool
  deriving DecidableEq

inductive Label where
  | run (volumeName podName : String) (now : Int)
  | complete (volumeName podName : String) (err : Option String) (now : Int)

def Label.Enabled (w : World) : Label → Prop
  | .run .. => True
  | .complete volumeName podName _ _ => (volumeName, podName) ∈ w.running

instance enabledDecidable (w : World) (label : Label) : Decidable (label.Enabled w) := by
  cases label <;> simp only [Label.Enabled] <;> infer_instance

variable (backoff : Bool)

def World.next (w : World) : Label → World
  | .run volumeName podName now =>
    match run w.operations volumeName podName now with
    | .ok operations => { w with operations := operations, running := (volumeName, podName) :: w.running }
    | .error _ => w
  | .complete volumeName podName err now =>
    let running := w.running.erase (volumeName, podName)
    match operationComplete backoff w.operations volumeName podName err now with
    | some operations => { w with operations := operations, running := running }
    | none => { w with running := running, panicked := true }

def initial : World := ⟨[], [], false⟩

def goroutines : System World Label :=
  .ofFun (fun w label => label.Enabled w) (World.next backoff)

/-! ### What the operations promise -/

def Apart (a b : String × String) : Prop := a.1 = b.1 → a.1 ≠ "" → a.2 ≠ "" ∧ b.2 ≠ "" ∧ a.2 ≠ b.2

instance apartDecidable (a b : String × String) : Decidable (Apart a b) := by unfold Apart; infer_instance

def pendingNames (operations : List Operation) : List (String × String) :=
  (operations.filter (·.operationPending)).map Operation.name

variable (w : World)

/-- A completion takes one pending record with the operation's name out of the records or marks it as failed, and
leaves the other records as they are. -/
def Label.SettlesOwn : Label → Prop
  | .run .. => True
  | .complete volumeName podName err now => ∃ own rest, own.operationPending = true ∧ own.name = (volumeName, podName) ∧
      w.operations.Perm (own :: rest) ∧
      ∃ operations, operationComplete backoff w.operations volumeName podName err now = some operations ∧
        (operations.Perm rest ∨ ∃ message, err = some message ∧ operations.Perm (own.fail message now :: rest))

/-- After the step no two running operations conflict, and a completion has settled its own record. -/
def Label.Keeps (label : Label) : Prop :=
  (w.next backoff label).running.Pairwise Apart ∧ label.SettlesOwn backoff w

def NoPendingMatch (volumeName podName : String) : Prop :=
  ∀ op ∈ operations, op.operationPending = true → op.matchesName volumeName podName = false

/-- At a call of `Run`, if the first record that matches has failed and waited long enough, no pending record matches;
at a completion the first record with the operation's name is pending. Both are conditions on the records only. -/
def Label.Sound : Label → Prop
  | .run volumeName podName now => volumeName ≠ "" →
      ∀ first, w.operations.find? (Operation.matchesName volumeName podName) = some first →
        first.operationPending = false → first.expBackoff.safeToRetry now = true →
          NoPendingMatch w.operations volumeName podName
  | .complete volumeName podName _ _ => ∀ i op, getOperation w.operations volumeName podName = some i →
      w.operations[i]? = some op → op.operationPending = true

/-- Every step of a run from the empty list of records, with the state in which it is taken, has the property `P`. -/
def Throughout (P : World → Label → Prop) (labels : List Label) : Prop :=
  ∀ first label rest m, labels = first ++ label :: rest → (goroutines backoff).Run initial first m → P m label

/-! ### Records -/

variable {operations operations' : List Operation} {volumeName podName : String} {now : Int} {backoff : Bool}

theorem pendingNames_perm (h : operations.Perm operations') :
    (pendingNames operations).Perm (pendingNames operations') :=
  (h.filter _).map _

theorem pendingNames_cons (rest : List Operation) : pendingNames (op :: rest) =
    if op.operationPending then op.name :: pendingNames rest else pendingNames rest := by
  unfold pendingNames
  rw [filter_cons]
  split <;> rfl

theorem mem_pendingNames {name : String × String} :
    name ∈ pendingNames operations ↔ ∃ op ∈ operations, op.operationPending = true ∧ op.name = name := by
  simp [pendingNames, and_assoc]

theorem perm_cons_eraseIdx {i : Nat} {op : Operation} (h : operations[i]? = some op) :
    operations.Perm (op :: operations.eraseIdx i) := by
  obtain ⟨hi, rfl⟩ := List.getElem?_eq_some_iff.mp h
  exact (getElem_cons_eraseIdx_perm hi).symm

theorem removeAt_perm {i : Nat} (hi : i < operations.length) :
    (removeAt operations i).Perm (operations.eraseIdx i) := by
  obtain ⟨front, last, rfl⟩ := eq_nil_or_concat' operations |>.resolve_left fun h => by
    rw [h] at hi
    exact absurd hi (Nat.not_lt_zero i)
  rw [removeAt, List.getLast?_concat, elim_some]
  rcases Nat.lt_or_ge i front.length with hlt | _
  · -- the last record takes the place of the removed one
    rw [set_append_left _ _ hlt, dropLast_concat, eraseIdx_append_of_lt_length hlt]
    exact (set_perm_cons_eraseIdx hlt last).trans (perm_append_singleton last _).symm
  · have heq : i = front.length := by simp at hi; omega
    subst heq
    simp [eraseIdx_append_of_length_le]

section
variable (h : run operations volumeName podName now = .ok operations')
include h

theorem run_cases :
    (volumeName ≠ "" ∧ ∃ op rest, op.operationPending = false ∧ operations.Perm (op :: rest) ∧
      operations'.Perm (⟨volumeName, podName, true, op.expBackoff⟩ :: rest)) ∨
    ((volumeName = "" ∨ ∀ op ∈ operations, op.matchesName volumeName podName = false) ∧
      operations' = operations ++ [⟨volumeName, podName, true, ⟨none, 0, 0⟩⟩]) := by
  rw [run] at h
  split at h
  · next i op hfound =>
    obtain ⟨_, hexists, hop⟩ := bind_eq_some_iff.mp hfound
    obtain ⟨_, hget, heq⟩ := map_eq_some_iff.mp hop
    cases heq
    split_ifs at h with hpend hretry
    cases h
    have hvolume : volumeName ≠ "" := fun hempty => by simp [isOperationExists, hempty] at hexists
    obtain ⟨hi, -⟩ := List.getElem?_eq_some_iff.mp hget
    exact .inl ⟨hvolume, op, operations.eraseIdx i, Bool.not_eq_true _ ▸ hpend, perm_cons_eraseIdx hget,
      set_perm_cons_eraseIdx hi _⟩
  · next hnone =>
    cases h
    refine .inr ⟨?_, rfl⟩
    by_cases hvolume : volumeName = ""
    · exact .inl hvolume
    · refine .inr fun op hop => ?_
      rw [isOperationExists, if_neg hvolume] at hnone
      cases hidx : operations.findIdx? (Operation.matchesName volumeName podName) with
      | none => exact List.findIdx?_eq_none_iff.mp hidx op hop
      | some =>
        obtain ⟨hi, -⟩ := List.findIdx?_eq_some_iff_getElem.mp hidx
        simp [hidx, List.getElem?_eq_getElem hi] at hnone

theorem pendingNames_run : (pendingNames operations').Perm ((volumeName, podName) :: pendingNames operations) := by
  obtain ⟨-, _, _, hpend, hperm, hperm'⟩ | ⟨-, rfl⟩ := run_cases h
  · have hbefore := pendingNames_perm hperm
    rw [pendingNames_cons, if_neg (by simp [hpend])] at hbefore
    exact (pendingNames_perm hperm').trans (hbefore.symm.cons _)
  · exact pendingNames_perm (perm_append_singleton _ _)

end

/-- For a volume with a name, `Run` starts an operation unless the first record that matches is pending or too young. -/
theorem run_ok_iff (hvolume : volumeName ≠ "") :
    (∃ operations', run operations volumeName podName now = .ok operations') ↔
    ∀ first, operations.find? (Operation.matchesName volumeName podName) = some first →
      first.operationPending = false ∧ first.expBackoff.safeToRetry now = true := by
  rw [run, isOperationExists, if_neg hvolume]
  cases hidx : operations.findIdx? (Operation.matchesName volumeName podName) with
  | none =>
    have hfind := List.find?_eq_none.mpr fun op hop => Bool.not_eq_true _ ▸ List.findIdx?_eq_none_iff.mp hidx op hop
    simp [hfind]
  | some i =>
    obtain ⟨hi, hmatch, hbefore⟩ := List.findIdx?_eq_some_iff_getElem.mp hidx
    have hfind : operations.find? (Operation.matchesName volumeName podName) = some operations[i] :=
      List.find?_eq_some_iff_getElem.mpr ⟨hmatch, i, hi, rfl, fun j hj => by simpa using hbefore j hj⟩
    simp only [bind_some, List.getElem?_eq_getElem hi, map_some, hfind, Option.some.injEq, forall_eq']
    split_ifs with hpend hretry
    · simp [hpend]
    · simp [hpend, hretry]
    · simp [hretry]

/-- What a completion does when a record has the name of the operation. -/
theorem operationComplete_cases (h : (volumeName, podName) ∈ pendingNames operations) (backoff : Bool)
    (err : Option String) (now : Int) :
    ∃ i found rest operations', getOperation operations volumeName podName = some i ∧ operations[i]? = some found ∧
      found.name = (volumeName, podName) ∧ operations.Perm (found :: rest) ∧
      operationComplete backoff operations volumeName podName err now = some operations' ∧
      (operations'.Perm rest ∨ ∃ message, err = some message ∧ operations'.Perm (found.fail message now :: rest)) := by
  obtain ⟨op, hop, -, hname⟩ := mem_pendingNames.mp h
  cases hget : getOperation operations volumeName podName with
  | none => exact absurd hname (by simpa using List.findIdx?_eq_none_iff.mp hget op hop)
  | some i =>
    obtain ⟨hi, hfound, -⟩ := List.findIdx?_eq_some_iff_getElem.mp hget
    have hat : operations[i]? = some operations[i] := List.getElem?_eq_getElem hi
    obtain ⟨operations', hcomp, hafter⟩ : ∃ operations',
        operationComplete backoff operations volumeName podName err now = some operations' ∧
          (operations'.Perm (operations.eraseIdx i) ∨ ∃ message, err = some message ∧
            operations'.Perm (operations[i].fail message now :: operations.eraseIdx i)) := by
      unfold operationComplete
      split
      · next message =>
        refine ⟨_, rfl, .inr ⟨message, rfl, ?_⟩⟩
        rw [hget, elim_some, modify_eq_set_getElem?, hat]
        exact set_perm_cons_eraseIdx hi _
      · exact ⟨removeAt operations i, by rw [deleteOperation, hget, map_some], .inl (removeAt_perm hi)⟩
    exact ⟨i, _, _, operations', rfl, hat, of_decide_eq_true hfound, perm_cons_eraseIdx hat, hcomp, hafter⟩

/-- A completion takes its name from the pending ones when the record it finds is pending, and none otherwise. -/
theorem pendingNames_complete {found : Operation} {rest : List Operation} {err : Option String}
    (hperm : operations.Perm (found :: rest))
    (hafter : operations'.Perm rest ∨
      ∃ message, err = some message ∧ operations'.Perm (found.fail message now :: rest)) :
    (pendingNames operations).Perm
      (if found.operationPending then found.name :: pendingNames operations' else pendingNames operations') := by
  have hrest : (pendingNames operations').Perm (pendingNames rest) := by
    obtain hafter | ⟨_, -, hafter⟩ := hafter
    · exact pendingNames_perm hafter
    · have hfail := pendingNames_perm hafter
      rwa [pendingNames_cons, if_neg (by simp [Operation.fail])] at hfail
  refine (pendingNames_perm hperm).trans ?_
  rw [pendingNames_cons]
  split
  · exact hrest.symm.cons _
  · exact hrest.symm

/-! ### Steps and runs -/

variable {w : World} {label : Label} {labels : List Label}

/-- What holds in every run: no completion panics, and the running operations have pending records. -/
structure World.Recorded (w : World) : Prop where
  panicked : w.panicked = false
  recorded : w.running.Subperm (pendingNames w.operations)

theorem World.Recorded.next (h : w.Recorded) (hen : label.Enabled w) : (w.next backoff label).Recorded := by
  cases label with
  | run =>
    simp only [World.next]
    split
    · next operations hrun =>
      exact ⟨h.panicked, ((subperm_cons _).mpr h.recorded).trans (pendingNames_run hrun).symm.subperm⟩
    · exact h
  | complete volumeName podName err now =>
    obtain ⟨i, _, _, operations, -, -, hname, hperm, hcomp, hafter⟩ :=
      operationComplete_cases (h.recorded.subset hen) backoff err now
    simp only [World.next, hcomp]
    have hnames := pendingNames_complete hperm hafter
    refine ⟨h.panicked, ?_⟩
    split at hnames
    · have herased := (h.recorded.trans hnames.subperm).erase (volumeName, podName)
      rwa [hname, erase_cons_head] at herased
    · exact (erase_sublist.subperm.trans h.recorded).trans hnames.subperm

structure World.Balanced (w : World) : Prop where
  perm : w.running.Perm (pendingNames w.operations)
  apart : w.running.Pairwise Apart

/-- A pending record keeps an operation out exactly if it matches its name. -/
theorem apart_iff {op : Operation} : Apart (volumeName, podName) op.name ↔
    (volumeName ≠ "" → op.matchesName volumeName podName = false) := by
  simp only [Apart, Operation.name, Operation.matchesName, decide_eq_false_iff_not]
  grind

/-- Where `Run` starts an operation, the condition on the records is that no pending one matches. -/
theorem sound_run_iff : (Label.run volumeName podName now).Sound w ↔ (volumeName ≠ "" →
    (∃ operations, run w.operations volumeName podName now = .ok operations) →
      NoPendingMatch w.operations volumeName podName) := by
  refine forall_congr' fun hvolume => ?_
  rw [run_ok_iff hvolume]
  cases hfind : w.operations.find? (Operation.matchesName volumeName podName) with
  | none =>
    have hnone : NoPendingMatch w.operations volumeName podName := fun op hop _ =>
      Bool.not_eq_true _ ▸ List.find?_eq_none.mp hfind op hop
    simp [hnone]
  | some first => simp

theorem apart_running_iff (h : w.Balanced) : (∀ other ∈ w.running, Apart (volumeName, podName) other) ↔
    (volumeName ≠ "" → NoPendingMatch w.operations volumeName podName) := by
  constructor
  · intro hall hvolume op hop hpend
    exact apart_iff.mp (hall _ (h.perm.mem_iff.mpr (mem_pendingNames.mpr ⟨op, hop, hpend, rfl⟩))) hvolume
  · intro hmat other hother
    obtain ⟨op, hop, hpend, rfl⟩ := mem_pendingNames.mp (h.perm.mem_iff.mp hother)
    exact apart_iff.mpr fun hvolume => hmat hvolume op hop hpend

/-- The condition on a step is exact: from a balanced state it holds of the steps that keep the promise. -/
theorem sound_iff_keeps (h : w.Balanced) (hen : label.Enabled w) : label.Sound w ↔ label.Keeps backoff w := by
  cases label with
  | run volumeName podName now =>
    simp only [sound_run_iff, Label.Keeps, Label.SettlesOwn, and_true, World.next]
    cases hrun : run w.operations volumeName podName now with
    | ok operations =>
      simp only [pairwise_cons, h.apart, and_true, apart_running_iff h]
      exact forall_congr' fun _ => forall_prop_of_true ⟨operations, rfl⟩
    | error => simp [h.apart]
  | complete _ _ err now =>
    obtain ⟨i, found, rest, operations, hget, hfound, hname, hperm, hcomp, hafter⟩ :=
      operationComplete_cases (h.perm.subset hen) backoff err now
    constructor
    · intro hsound
      have hpend := hsound i found hget hfound
      refine ⟨?_, found, rest, hpend, hname, hperm, operations, hcomp, hafter⟩
      simp only [World.next, hcomp]
      exact h.apart.sublist erase_sublist
    · rintro ⟨-, _, _, hown, -, hsplit, _, hcomp', hsettled⟩ _ _ hget' hop
      -- one pending record less after the step, so the record that was found was pending
      cases hcomp.symm.trans hcomp'
      cases hget.symm.trans hget'
      cases hfound.symm.trans hop
      have hlen := (pendingNames_complete hperm hafter).length_eq
      have hlen' := (pendingNames_complete hsplit hsettled).length_eq
      rw [if_pos hown, length_cons] at hlen'
      by_contra hpend
      rw [if_neg hpend] at hlen
      omega

theorem World.Balanced.next (h : w.Balanced) (hen : label.Enabled w) (hsound : label.Sound w) :
    (w.next backoff label).Balanced := by
  refine ⟨?_, ((sound_iff_keeps h hen).mp hsound).1⟩
  cases label with
  | run =>
    simp only [World.next]
    split
    · next operations hrun => exact (h.perm.cons _).trans (pendingNames_run hrun).symm
    · exact h.perm
  | complete volumeName podName err now =>
    obtain ⟨i, found, _, operations, hget, hfound, hname, hperm, hcomp, hafter⟩ :=
      operationComplete_cases (h.perm.subset hen) backoff err now
    simp only [World.next, hcomp]
    have hnames := pendingNames_complete hperm hafter
    rw [if_pos (hsound i found hget hfound), hname] at hnames
    simpa using (h.perm.trans hnames).erase (volumeName, podName)

theorem throughout_concat {P : World → Label → Prop} : Throughout backoff P (labels ++ [label]) ↔
    Throughout backoff P labels ∧ ∀ m, (goroutines backoff).Run initial labels m → P m label := by
  constructor
  · intro h
    refine ⟨fun first l rest m hlabels => h first l (rest ++ [label]) m ?_, fun m => h labels label [] m rfl⟩
    rw [hlabels, append_assoc, cons_append]
  · rintro ⟨hbefore, hlast⟩ first l rest m hlabels hrun
    rcases eq_nil_or_concat' rest with rfl | ⟨rest', _, rfl⟩
    · obtain ⟨rfl, hl⟩ := append_inj' hlabels rfl
      cases hl
      exact hlast m hrun
    · rw [← cons_append, ← append_assoc] at hlabels
      obtain ⟨rfl, -⟩ := append_inj' hlabels rfl
      exact hbefore first l rest' m rfl hrun

section
variable (h : (goroutines backoff).Run initial labels w)
include h

theorem balanced_run (hsound : Throughout backoff (fun m label => label.Sound m) labels) : w.Balanced := by
  induction h with
  | nil => exact ⟨.refl _, .nil⟩
  | snoc hrun hstep ih =>
    obtain ⟨hbefore, hlast⟩ := throughout_concat.mp hsound
    obtain ⟨hen, rfl⟩ := hstep
    exact (ih hbefore).next hen (hlast _ hrun)

theorem sound_iff_keeps_run : Throughout backoff (fun m label => label.Sound m) labels ↔
      Throughout backoff (fun m label => label.Keeps backoff m) labels := by
  induction h with
  | nil => simp [Throughout]
  | @snoc _ _ _ label hrun hstep ih =>
    rw [throughout_concat, throughout_concat, ← ih]
    refine and_congr_right fun hbefore => forall₂_congr fun m hm => ?_
    have hen : label.Enabled m := by
      rw [hm.eq_foldl, ← hrun.eq_foldl]
      exact hstep.1
    exact sound_iff_keeps (balanced_run hm hbefore) hen

/-- **Volume operations exclude each other** in exactly the runs in which no failed record that `Run` takes over stands
before a pending one that matches too, and every completion finds a pending record. In all runs the running operations
have pending records of their own, and no completion indexes the records with -1. -/
theorem volume_operations_exclude : w.panicked = false ∧ w.running.Subperm (pendingNames w.operations) ∧
      (Throughout backoff (fun m label => label.Sound m) labels ↔
        Throughout backoff (fun m label => label.Keeps backoff m) labels) := by
  have hrecorded : w.Recorded := by
    refine h.invariant World.Recorded ?_ ⟨rfl, List.Subperm.refl _⟩
    rintro m _ _ ⟨henabled, rfl⟩ hm
    exact hm.next henabled
  exact ⟨hrecorded.panicked, hrecorded.recorded, sound_iff_keeps_run h⟩

end

def mounts : List Label :=
  [.run "v" "p" 0, .complete "v" "p" (some "failed") 0, .run "v" "p" 500000001, .run "v" "q" 0]

theorem volume_operations_exclude_mounts : ∃ w, (goroutines true).Run initial mounts w ∧ w.panicked = false ∧
    w.running = [("v", "q"), ("v", "p")] ∧ w.running.Subperm (pendingNames w.operations) := by
  have hrun : (goroutines true).Run initial mounts _ := System.run_foldl (by decide +kernel)
  obtain ⟨hpanicked, hrecorded, -⟩ := volume_operations_exclude hrun
  exact ⟨_, hrun, hpanicked, by decide +kernel, hrecorded⟩

/-- The failed record of a pod comes first, so that an unmount of the device starts during the mount of another pod. -/
theorem volume_operations_overlap : ∃ w, (goroutines true).Run initial
      [.run "v" "p" 0, .complete "v" "p" (some "failed") 0, .run "v" "q" 0, .run "v" "" 500000001] w ∧
    w.running = [("v", ""), ("v", "q")] ∧ ¬ w.running.Pairwise Apart :=
  ⟨_, System.run_foldl (by decide +kernel), by decide +kernel, by decide +kernel⟩

end LeanKube.NestedPending
