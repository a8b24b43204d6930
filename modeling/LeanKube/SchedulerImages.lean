import LeanKube.SchedulerNodes

/-! The images on the nodes. The cache keeps the nodes of every image name, and every node has a
summary of its images with the number of those nodes. The summary is made when the node itself is
added or updated, so it goes stale when an image comes to or leaves another node. -/

namespace LeanKube.Scheduler
open List SchedulerCache Finmap GoMap

def Node.listedImages (node : Node) : List String := (imageNames node).map Prod.fst

def imagesAt (nodes : GoMap String NodeInfo) (name : String) : List String :=
  ((nodeAt nodes name).map Node.listedImages).getD []

variable (imageStates : GoMap String ImageState)

def holders (image : String) : Finset String :=
  ((imageStates.lookup image).map ImageState.nodes).getD ∅

def NoneFree : Prop :=
  ∀ image state, imageStates.lookup image = some state → state.nodes ≠ ∅

/-! ### One node is added to or removed from the image states -/

section Turns
variable {nodeName : String} (acc : GoMap String ImageState × GoMap String ImageStateSummary) (image : String × Int64)

theorem holders_addImageState (image' : String) : holders (addImageState nodeName acc image).1 image' =
      if image' = image.1 then insert nodeName (holders acc.1 image') else holders acc.1 image' := by
  simp only [holders, addImageState, lookup_insert_ite]
  split_ifs with himage
  · rw [himage]
    cases acc.1.lookup image.1 <;> rfl
  · rfl

theorem summary_addImageState : (addImageState nodeName acc image).2 = if image.1 ∈ acc.2 then acc.2 else
      acc.2.insert image.1 ⟨((acc.1.lookup image.1).map ImageState.size).getD image.2,
        (insert nodeName (holders acc.1 image.1)).card⟩ := by
  simp only [addImageState, holders]
  split_ifs
  · rfl
  · cases acc.1.lookup image.1 <;> rfl

theorem noneFree_addImageState {acc : GoMap String ImageState × GoMap String ImageStateSummary}
    (h : NoneFree acc.1) (image : String × Int64) : NoneFree (addImageState nodeName acc image).1 := by
  refine forall_insert h ?_
  split
  · exact Finset.singleton_ne_empty nodeName
  · exact Finset.insert_ne_empty nodeName _

theorem holders_removeImageState (imageStates : GoMap String ImageState) (image : String × Int64)
    (image' : String) : holders (removeImageState nodeName imageStates image) image' =
      if image' = image.1 then (holders imageStates image').erase nodeName else holders imageStates image' := by
  rw [removeImageState]
  split_ifs with himage
  · subst himage
    cases hstate : imageStates.lookup image.1 with
    | none =>
      rw [holders, hstate]
      rfl
    | some state =>
      have hholders : holders imageStates image.1 = state.nodes := by rw [holders, hstate]; rfl
      simp only [hholders]
      split_ifs with hempty
      · rw [holders, lookup_erase, hempty]
        rfl
      · rw [holders, lookup_insert]
        rfl
  · cases imageStates.lookup image.1 with
    | none => rfl
    | some =>
      simp only
      split_ifs
      · rw [holders, lookup_erase_ne himage, ← holders]
      · rw [holders, lookup_insert_of_ne _ himage, ← holders]

theorem noneFree_removeImageState {imageStates : GoMap String ImageState} (h : NoneFree imageStates)
    (image : String × Int64) : NoneFree (removeImageState nodeName imageStates image) := by
  rw [removeImageState]
  split
  · exact h
  · split_ifs with hempty
    · exact fun image' state hstate => h image' state (of_lookup_erase hstate).2
    · exact forall_insert h hempty

end Turns

section Loops
variable (imageStates : GoMap String ImageState) (node : Node) (image : String)

theorem holders_addNodeImageStates : holders (addNodeImageStates imageStates node).1 image =
      if image ∈ node.listedImages then insert node.name (holders imageStates image)
      else holders imageStates image := by
  rw [addNodeImageStates, Node.listedImages]
  generalize (∅ : GoMap String ImageStateSummary) = summaries
  induction imageNames node generalizing imageStates summaries with
  | nil => rfl
  | cons head _ ih =>
    rw [foldl_cons, ih, holders_addImageState, map_cons]
    by_cases hhead : image = head.1
    · simp [hhead]
    · rw [if_neg hhead]
      simp only [mem_cons, hhead, false_or]

theorem noneFree_addNodeImageStates {imageStates : GoMap String ImageState}
    (h : NoneFree imageStates) (node : Node) : NoneFree (addNodeImageStates imageStates node).1 :=
  foldlRecOn (motive := fun acc : _ × _ => NoneFree acc.1) _ _ h fun _ hacc image _ => noneFree_addImageState hacc image

theorem mem_summaries : image ∈ (addNodeImageStates imageStates node).2 ↔ image ∈ node.listedImages := by
  have hloop : ∀ (images : List (String × Int64)) acc, image ∈ (images.foldl (addImageState node.name) acc).2 ↔
        image ∈ acc.2 ∨ image ∈ images.map Prod.fst := by
    intro images
    induction images with
    | nil => exact fun acc => (or_iff_left not_mem_nil).symm
    | cons head _ ih =>
      intro acc
      have hturn : image ∈ (addImageState node.name acc head).2 ↔ image ∈ acc.2 ∨ image = head.1 := by
        rw [summary_addImageState]
        split_ifs with hseen
        · exact (or_iff_left_of_imp fun heq => heq ▸ hseen).symm
        · rw [mem_insert, or_comm]
      rw [foldl_cons, ih, hturn, or_assoc, map_cons, mem_cons]
  rw [addNodeImageStates, hloop, Node.listedImages]
  exact or_iff_right (notMem_empty)

/-- Every summary has the number of nodes that the image has once the node is among them. -/
def Summed (nodeName : String) (acc : GoMap String ImageState × GoMap String ImageStateSummary) : Prop :=
  ∀ image summary, acc.2.lookup image = some summary → summary.numNodes = (insert nodeName (holders acc.1 image)).card

theorem Summed.turn {nodeName : String}
    {acc : GoMap String ImageState × GoMap String ImageStateSummary} (h : Summed nodeName acc)
    (image : String × Int64) : Summed nodeName (addImageState nodeName acc image) := by
  intro image' summary hsum
  -- inserting the node is idempotent, so the number is final from the first turn on
  have hholders : insert nodeName (holders (addImageState nodeName acc image).1 image') =
      insert nodeName (holders acc.1 image') := by
    rw [holders_addImageState]
    split_ifs
    · exact Finset.insert_idem nodeName _
    · rfl
  rw [hholders]
  rw [summary_addImageState] at hsum
  split_ifs at hsum with hseen
  · exact h image' summary hsum
  · rcases of_lookup_insert hsum with ⟨rfl, rfl⟩ | ⟨-, hold⟩
    · rfl
    · exact h image' summary hold

theorem summed_addNodeImageStates : Summed node.name (addNodeImageStates imageStates node) :=
  foldlRecOn (motive := Summed node.name) _ _ (fun _ _ hnone => by cases hnone) fun _ hacc image _ => hacc.turn image

theorem holders_removeNodeImageStates : holders (removeNodeImageStates imageStates (some node)) image =
      if image ∈ node.listedImages then (holders imageStates image).erase node.name
      else holders imageStates image := by
  rw [removeNodeImageStates, Node.listedImages]
  induction imageNames node generalizing imageStates with
  | nil => rfl
  | cons head _ ih =>
    rw [foldl_cons, ih, holders_removeImageState, map_cons]
    by_cases hhead : image = head.1
    · simp [hhead]
    · rw [if_neg hhead]
      simp only [mem_cons, hhead, false_or]

theorem noneFree_removeNodeImageStates {imageStates : GoMap String ImageState}
    (h : NoneFree imageStates) : (node : Option Node) → NoneFree (removeNodeImageStates imageStates node)
  | none => h
  | some _ => foldlRecOn (motive := NoneFree) _ _ h fun _ hacc image _ => noneFree_removeImageState hacc image

end Loops

/-! ### The index -/

structure Indexed (c : SchedulerCache) : Prop where
  named : StoredNamed c.nodes
  noneFree : NoneFree c.imageStates
  held : ∀ image name, name ∈ holders c.imageStates image ↔ image ∈ imagesAt c.nodes name

variable {name : String} {nodes : GoMap String NodeInfo} {c' c : SchedulerCache} {op : CacheOp}

theorem imagesAt_of_stored {nodes' : GoMap String NodeInfo}
    (h : storedAt nodes' name = storedAt nodes name) : imagesAt nodes' name = imagesAt nodes name := by
  rw [imagesAt, imagesAt, nodeAt_eq_stored, h, ← nodeAt_eq_stored]

theorem Indexed.sameNodes (h : Indexed c) (hsame : SameNodes c c') : Indexed c' where
  named := h.named.of_stored hsame.stored
  noneFree := hsame.imageStates ▸ h.noneFree
  held image name := by
    rw [hsame.imageStates, imagesAt_of_stored (hsame.stored name)]
    exact h.held image name

structure ImagesChanged (c c' : SchedulerCache) (name : String) (images : List String) : Prop where
  stored : ∀ other, other ≠ name → storedAt c'.nodes other = storedAt c.nodes other
  named : ∀ node, nodeAt c'.nodes name = some node → node.name = name
  listed : imagesAt c'.nodes name = images
  noneFree : NoneFree c'.imageStates
  held : ∀ image, holders c'.imageStates image = if image ∈ images then insert name (holders c.imageStates image)
    else (holders c.imageStates image).erase name
  summaries : ∀ node summaries, storedAt c'.nodes name = some (node, summaries) →
    ∀ image ∈ images, ∃ summary, summaries.lookup image = some summary ∧
      summary.numNodes = (holders c'.imageStates image).card

section
variable (h : Indexed c)
include h

theorem Indexed.changed {images : List String} (hchg : ImagesChanged c c' name images) : Indexed c' where
  named other node hnode := by
    by_cases hother : other = name
    · subst hother
      exact hchg.named node hnode
    · rw [nodeAt_eq_stored, hchg.stored other hother, ← nodeAt_eq_stored] at hnode
      exact h.named other node hnode
  noneFree := hchg.noneFree
  held image other := by
    rw [hchg.held]
    by_cases hother : other = name
    · subst hother
      rw [hchg.listed]
      split_ifs with himage
      · exact iff_of_true (Finset.mem_insert_self _ _) himage
      · exact iff_of_false (Finset.notMem_erase _ _) himage
    · rw [imagesAt_of_stored (hchg.stored other hother), ← h.held]
      split_ifs
      · rw [Finset.mem_insert, or_iff_right hother]
      · rw [Finset.mem_erase, and_iff_right hother]

theorem Indexed.holders_taken (name image : String) :
    holders (removeNodeImageStates c.imageStates (nodeAt c.nodes name)) image =
      (holders c.imageStates image).erase name := by
  have hiff := h.held image name
  rw [imagesAt] at hiff
  cases hnode : nodeAt c.nodes name with
  | none =>
    rw [hnode] at hiff
    rw [removeNodeImageStates, Finset.erase_eq_of_notMem fun hmem => by cases hiff.mp hmem]
  | some node =>
    rw [hnode] at hiff
    rw [holders_removeNodeImageStates, h.named name node hnode]
    split_ifs with himage
    · rfl
    · rw [Finset.erase_eq_of_notMem fun hmem => himage (hiff.mp hmem)]

theorem Indexed.putNode (nodeTree : NodeTree) (node : Node) :
    ImagesChanged c (c.putNode nodeTree node) node.name node.listedImages := by
  obtain ⟨himages, hstored⟩ := putNode_images c nodeTree node
  have hself : storedAt (c.putNode nodeTree node).nodes node.name =
      some (node, (c.putImages node).2) := by rw [hstored, if_pos rfl]
  have hnode : nodeAt (c.putNode nodeTree node).nodes node.name = some node := by
    rw [nodeAt_eq_stored, hself]
    rfl
  have hholders : ∀ image, holders (c.putNode nodeTree node).imageStates image =
      if image ∈ node.listedImages then insert node.name (holders c.imageStates image)
      else (holders c.imageStates image).erase node.name := by
    intro image
    rw [himages, putImages, holders_addNodeImageStates, h.holders_taken]
    split_ifs
    · ext other
      by_cases hother : other = node.name <;> simp [hother]
    · rfl
  constructor
  · intro other hother
    rw [hstored, if_neg hother]
  · intro other hother
    cases hnode.symm.trans hother
    rfl
  · rw [imagesAt, hnode]
    rfl
  · exact noneFree_addNodeImageStates (noneFree_removeNodeImageStates h.noneFree _) node
  · exact hholders
  · intro node' summaries hsome image himage
    cases hself.symm.trans hsome
    obtain ⟨summary, hsum⟩ := mem_iff.mp ((mem_summaries _ node image).mpr himage)
    refine ⟨summary, hsum, ?_⟩
    rw [summed_addNodeImageStates _ node image summary hsum, himages, putImages,
      holders_addNodeImageStates, if_pos himage, Finset.insert_idem]

theorem Indexed.removeNode {node : Node} (hnode : nodeAt c.nodes node.name = some node)
    (hstate : (c.removeNode node).state? = some c') : ImagesChanged c c' node.name [] := by
  have hself : storedAt c'.nodes node.name = none := by
    rw [storedAt_removeNode hstate, if_pos rfl]
  have hgone : nodeAt c'.nodes node.name = none := by
    rw [nodeAt_eq_stored, hself]
    rfl
  constructor
  · intro other hother
    rw [storedAt_removeNode hstate, if_neg hother]
  · intro node' hnode'
    cases hgone.symm.trans hnode'
  · rw [imagesAt, hgone]
    rfl
  · rw [imageStates_removeNode hstate]
    exact noneFree_removeNodeImageStates h.noneFree _
  · intro image
    rw [imageStates_removeNode hstate, ← hnode, h.holders_taken]
    rfl
  · intro node' summaries hsome
    cases hself.symm.trans hsome

variable (image : String)

theorem Indexed.mem_imageStates : image ∈ c.imageStates ↔ ∃ name, image ∈ imagesAt c.nodes name := by
  constructor
  · intro hmem
    obtain ⟨state, hstate⟩ := mem_iff.mp hmem
    obtain ⟨name, hname⟩ := Finset.nonempty_iff_ne_empty.mpr (h.noneFree image state hstate)
    refine ⟨name, (h.held image name).mp ?_⟩
    rw [holders, hstate]
    exact hname
  · rintro ⟨name, himage⟩
    rw [mem_iff_lookup_ne_none]
    intro hnone
    have hmem := (h.held image name).mpr himage
    rw [holders, hnone] at hmem
    exact Finset.notMem_empty name hmem

theorem Indexed.nodes_imageState (state : ImageState)
    (hstate : c.imageStates.lookup image = some state) (name : String) :
    name ∈ state.nodes ↔ image ∈ imagesAt c.nodes name := by
  rw [← h.held, holders, hstate]
  rfl

end

/-! ### Runs -/

/-- The node that a call puts into or takes out of the cache, and its images afterwards. -/
def CacheOp.changesImages : CacheOp → Option (String × List String)
  | .addNode node => some (node.name, node.listedImages)
  | .updateNode _ newNode => some (newNode.name, newNode.listedImages)
  | .removeNode node => some (node.name, [])
  | _ => none

theorem Indexed.perform (h : Indexed c) (hstep : storedSystem.step c op c') :
    match op.changesImages with
    | none => SameNodes c c'
    | some (name, images) => ImagesChanged c c' name images := by
  obtain ⟨hen, rfl⟩ := hstep
  obtain ⟨hremoves, hreturns⟩ := Bool.and_eq_true_iff.mp hen
  obtain ⟨hvis, hstate⟩ := cacheSystem_step ⟨hreturns, rfl⟩
  cases op with
  | addNode node => cases hstate; exact h.putNode _ node
  | updateNode _ newNode => cases hstate; exact h.putNode _ newNode
  | removeNode => exact h.removeNode (of_decide_eq_true hremoves) hstate
  | _ => exact perform_sameNodes rfl hvis hstate

theorem indexed_new (ttl : Int) : Indexed (newSchedulerCache ttl) where
  named _ _ hnode := by cases hnode
  noneFree _ _ hstate := by cases hstate
  held _ _ := iff_of_false (Finset.notMem_empty _) not_mem_nil

theorem Indexed.step (hstep : storedSystem.step c op c') (h : Indexed c) : Indexed c' := by
  have heff := h.perform hstep
  cases hop : op.changesImages with
  | none =>
    rw [hop] at heff
    exact h.sameNodes heff
  | some =>
    rw [hop] at heff
    exact h.changed heff

variable (c)

def SummariesExact : Prop :=
  ∀ name node summaries, storedAt c.nodes name = some (node, summaries) →
    ∀ image ∈ node.listedImages, ∃ summary, summaries.lookup image = some summary ∧
      summary.numNodes = (holders c.imageStates image).card

def KeepsShared (name : String) (images : List String) : Prop :=
  ∀ other ∈ c.nodes.keys, other ≠ name → ∀ image ∈ imagesAt c.nodes other,
    (image ∈ imagesAt c.nodes name ↔ image ∈ images)

variable {c}

instance keepsSharedDecidable (c : SchedulerCache) (name : String) (images : List String) :
    Decidable (KeepsShared c name images) := by
  unfold KeepsShared
  infer_instance

theorem mem_imagesAt {image : String} : image ∈ imagesAt nodes name ↔ ∃ node summaries,
      storedAt nodes name = some (node, summaries) ∧ image ∈ node.listedImages := by
  rw [imagesAt, nodeAt_eq_stored]
  cases storedAt nodes name with
  | none => simp
  | some => simp [Prod.ext_iff, and_assoc]

theorem mem_keys_of_stored {stored} (h : storedAt nodes name = some stored) : name ∈ nodes.keys := by
  obtain ⟨n, hn, _⟩ := Option.bind_eq_some_iff.mp h
  exact mem_keys.mpr (mem_of_lookup_eq_some hn)

theorem SummariesExact.changed_iff (h : SummariesExact c) (hixd : Indexed c) {images : List String}
    (hchg : ImagesChanged c c' name images) : SummariesExact c' ↔ KeepsShared c name images := by
  constructor
  · intro hafter other _ hother image himage
    obtain ⟨node, summaries, hstored, hlisted⟩ := mem_imagesAt.mp himage
    obtain ⟨summary, hsum, hbefore⟩ := h other node summaries hstored image hlisted
    obtain ⟨_, hsum', hnum⟩ := hafter other node summaries (hchg.stored other hother ▸ hstored) image hlisted
    cases hsum.symm.trans hsum'
    have hcard := hbefore.symm.trans hnum
    rw [hchg.held] at hcard
    rw [← hixd.held]
    split_ifs at hcard with himages
    · refine iff_of_true (by_contra fun hmiss => ?_) himages
      rw [Finset.card_insert_of_notMem hmiss] at hcard
      omega
    · refine iff_of_false (fun hmem => ?_) himages
      have hpos := Finset.card_pos.mpr ⟨name, hmem⟩
      rw [Finset.card_erase_of_mem hmem] at hcard
      omega
  · intro hkeeps other node summaries hstored image hlisted
    by_cases hother : other = name
    · subst hother
      refine hchg.summaries node summaries hstored image ?_
      rw [← hchg.listed]
      exact mem_imagesAt.mpr ⟨node, summaries, hstored, hlisted⟩
    · rw [hchg.stored other hother] at hstored
      obtain ⟨summary, hsum, hnum⟩ := h other node summaries hstored image hlisted
      refine ⟨summary, hsum, hnum.trans ?_⟩
      have hshared := hkeeps other (mem_keys_of_stored hstored) hother image
        (mem_imagesAt.mpr ⟨node, summaries, hstored, hlisted⟩)
      rw [← hixd.held] at hshared
      rw [hchg.held]
      split_ifs with himages
      · rw [Finset.insert_eq_of_mem (hshared.mpr himages)]
      · rw [Finset.erase_eq_of_notMem fun hmem => himages (hshared.mp hmem)]

def CacheOp.keepsShared (c : SchedulerCache) (op : CacheOp) : Bool :=
  op.changesImages.all fun change => KeepsShared c change.1 change.2

def sharedImagesSystem : System SchedulerCache CacheOp :=
  System.ofFun (fun c op => (op.removesStored c && c.returns op) && op.keepsShared c)
    SchedulerCache.next

theorem sharedImagesSystem_step (h : sharedImagesSystem.step c op c') :
    storedSystem.step c op c' ∧ op.keepsShared c = true := by
  obtain ⟨hen, rfl⟩ := h
  obtain ⟨hstored, hkeeps⟩ := Bool.and_eq_true_iff.mp hen
  exact ⟨⟨hstored, rfl⟩, hkeeps⟩

theorem SummariesExact.step (hstep : sharedImagesSystem.step c op c') (hixd : Indexed c)
    (h : SummariesExact c) : SummariesExact c' := by
  obtain ⟨hstored, hkeeps⟩ := sharedImagesSystem_step hstep
  have heff := hixd.perform hstored
  rw [CacheOp.keepsShared] at hkeeps
  cases hop : op.changesImages with
  | none =>
    rw [hop] at heff
    intro name node summaries hsome
    rw [heff.stored] at hsome
    rw [heff.imageStates]
    exact h name node summaries hsome
  | some =>
    rw [hop] at heff hkeeps
    exact (h.changed_iff hixd heff).mpr (of_decide_eq_true hkeeps)

/-- **The cache has an entry for exactly the images that some node lists, with exactly these nodes,
and as long as no image that another node lists comes or goes every node has their number in its
summary.** -/
theorem imageStates_exact {ttl : Int} {ops : List CacheOp} {c : SchedulerCache}
    (hrun : sharedImagesSystem.Run (newSchedulerCache ttl) ops c) :
    (∀ image, image ∈ c.imageStates ↔ ∃ name, image ∈ imagesAt c.nodes name) ∧
    (∀ image state, c.imageStates.lookup image = some state →
      ∀ name, name ∈ state.nodes ↔ image ∈ imagesAt c.nodes name) ∧
    ∀ name n node, c.nodes.lookup name = some n → n.node = some node →
      ∀ image ∈ node.listedImages, ∃ state summary, c.imageStates.lookup image = some state ∧
        n.imageStates.lookup image = some summary ∧ summary.numNodes = state.nodes.card := by
  have hboth : Indexed c ∧ SummariesExact c := by
    refine hrun.invariant (fun c => Indexed c ∧ SummariesExact c) ?_ ?_
    · rintro c _ _ hstep ⟨hindexed, hexact⟩
      exact ⟨hindexed.step (sharedImagesSystem_step hstep).1, hexact.step hstep hindexed⟩
    · exact ⟨indexed_new ttl, fun _ _ _ hstored => by cases hstored⟩
  obtain ⟨hindexed, hexact⟩ := hboth
  refine ⟨hindexed.mem_imageStates, hindexed.nodes_imageState, ?_⟩
  intro name n node hn hnode image himage
  have hstored : storedAt c.nodes name = some (node, n.imageStates) := by
    rw [storedAt, hn]
    exact Option.map_eq_some_iff.mpr ⟨node, hnode, rfl⟩
  obtain ⟨summary, hsummary, hnumber⟩ := hexact name node _ hstored image himage
  have hentry : image ∈ c.imageStates := (hindexed.mem_imageStates image).mpr
    ⟨name, mem_imagesAt.mpr ⟨node, _, hstored, himage⟩⟩
  obtain ⟨state, hstate⟩ := mem_iff.mp hentry
  refine ⟨state, summary, hstate, hsummary, ?_⟩
  rw [hnumber, holders, hstate]
  rfl

def imageNode (name : String) (images : List String) : Node :=
  { name, labels := ∅, allocatable := .empty, taints := [], conditions := []
    images := images.map fun image => { names := [image, image], sizeBytes := 10 } }

/-- Two nodes with their own images; one of them changes its images, and the other one goes. -/
def ownImages : List CacheOp :=
  [.addNode (imageNode "a" ["x", "y"]), .addNode (imageNode "b" ["z"]),
    .updateNode (imageNode "a" ["x", "y"]) (imageNode "a" ["y", "w"]),
    .removeNode (imageNode "b" ["z"])]

theorem imageStates_exact_own :
    let c := ownImages.foldl SchedulerCache.next (newSchedulerCache 30)
    sharedImagesSystem.Run (newSchedulerCache 30) ownImages c ∧
      (∀ image, image ∈ c.imageStates ↔ ∃ name, image ∈ imagesAt c.nodes name) ∧
      "w" ∈ c.imageStates ∧ "z" ∉ c.imageStates := by
  have hrun : sharedImagesSystem.Run (newSchedulerCache 30) ownImages
      (ownImages.foldl SchedulerCache.next (newSchedulerCache 30)) :=
    System.run_foldl (by decide)
  exact ⟨hrun, (imageStates_exact hrun).1, by decide, by decide⟩

def sharedImage : List CacheOp := [.addNode (imageNode "a" ["x"]), .addNode (imageNode "b" ["x"])]

/-- The first node is not told. -/
theorem imageStates_shared_stale :
    let c := sharedImage.foldl SchedulerCache.next (newSchedulerCache 30)
    storedSystem.Run (newSchedulerCache 30) sharedImage c ∧ c.imageStates.lookup "x" = some ⟨10, {"b", "a"}⟩ ∧
      (c.nodes.lookup "a").bind (fun n => n.imageStates.lookup "x") = some ⟨10, 1⟩ ∧
      (c.nodes.lookup "b").bind (fun n => n.imageStates.lookup "x") = some ⟨10, 2⟩ :=
  ⟨System.run_foldl (by decide), rfl, rfl, rfl⟩

end LeanKube.Scheduler
