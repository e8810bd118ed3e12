/-
# The walk goes level by level

With the order in which `readdir` lists each directory fixed, the queue of `copy_internal`
makes the walk the level order of the source.  Its effects are the directories that `mkdir`
makes and the requests that `copy_reg` makes; they come in the order of the reference.
-/
import Cpr.Lib.LevelOrder
import Cpr.System.Flat
import Cpr.System.Source
import Mathlib.Order.Lattice.Nat

namespace Cpr

open LevelOrder Transition Unix

/-- What `copy_internal` does: it makes a directory, or a copy request. -/
inductive Effect
  | mkdir (dstName : CStr)
  | request (srcName dstName : CStr)
deriving DecidableEq, Repr

/-- The effects of a step. -/
def Prog.effects (p : Prog) : Label → List Effect
  | .mkdir true => (p.queue.head?.map fun curr => Effect.mkdir curr.dstName).toList
  | .copyReg => (p.queue.head?.map fun curr => Effect.request curr.srcName curr.dstName).toList
  | _ => []

lemma Prog.effects_of_ne {p : Prog} {l : Label} (hmkdir : l ≠ .mkdir true)
    (hcopyReg : l ≠ .copyReg) : p.effects l = [] := by
  unfold Prog.effects
  split
  · exact absurd rfl hmkdir
  · exact absurd rfl hcopyReg
  · rfl

/-- The effects of a run. -/
def Sys.effects : Sys → List Label → List Effect
  | _, [] => []
  | s, l :: ls =>
    s.prog.effects l ++
      match s.step l with
      | none => []
      | some s' => s'.effects ls

/-- An entry of a directory other than `.` and `..`. -/
def isEntry (name : Name) : Bool := decide (¬ (name = dot ∨ name = dotdot))

/-! ## The reference -/

namespace Source

variable (t : Source) (order : Loc → List Name)

/-- Each directory of the source is listed: each entry once, `.` and `..` anywhere or not at
all. -/
structure Listing : Prop where
  nodup : ∀ rel, t.kind rel = some .dir → (order (rel ++ t.root)).Nodup
  mem : ∀ rel, t.kind rel = some .dir → ∀ n, isEntry n = true →
    (n ∈ order (rel ++ t.root) ↔ (t.kind (n :: rel)).isSome)

/-- The places in a directory, in the order of its listing. -/
def children (rel : Loc) : List Loc :=
  if t.kind rel = some .dir then ((order (rel ++ t.root)).filter isEntry).map (· :: rel) else []

/-- The places of the source, level by level. -/
def places : List Loc := levels (t.children order) [] (t.fs.dom.sup List.length + 1)

/-- What has to be done for a place. -/
def effect (rel : Loc) : Effect :=
  if t.kind rel = some .dir then .mkdir ((Node.mk t.srcName t.dstName).below rel).dstName
  else .request ((Node.mk t.srcName t.dstName).below rel).srcName
    ((Node.mk t.srcName t.dstName).below rel).dstName

/-- The effects of a traversal of the source in level order. -/
def reference : List Effect := (t.places order).map t.effect

end Source

namespace Source.Listing

variable {t : Source} {order : Loc → List Name} {rel rel' : Loc} {n : ℕ}

lemma mem_children (h : t.Listing order) :
    rel' ∈ t.children order rel ↔ ∃ n, rel' = n :: rel ∧ t.kind rel = some .dir ∧
      (t.kind (n :: rel)).isSome := by
  have hentry : ∀ m, (t.kind (m :: rel)).isSome → isEntry m = true := by
    intro m hm
    have hlegal := legal_of_kind hm m List.mem_cons_self
    simp [isEntry, hlegal.ne_dot, hlegal.ne_dotdot]
  unfold children
  split_ifs with hdir
  · simp only [List.mem_map, List.mem_filter]
    constructor
    · rintro ⟨m, ⟨hm, hentry⟩, rfl⟩
      exact ⟨m, rfl, hdir, (h.mem rel hdir m hentry).mp hm⟩
    · rintro ⟨m, rfl, -, hm⟩
      exact ⟨m, ⟨(h.mem rel hdir m (hentry m hm)).mpr hm, hentry m hm⟩, rfl⟩
  · simp [hdir]

/-- The places at depth `n` are those with `n` names. -/
lemma mem_level (h : t.Listing order) :
    rel ∈ level (t.children order) [] n ↔ (t.kind rel).isSome ∧ rel.length = n := by
  induction n generalizing rel with
  | zero =>
    rw [level, List.mem_singleton, List.length_eq_zero_iff]
    constructor
    · rintro rfl
      exact ⟨by simpa [kind] using t.root_isSome, rfl⟩
    · exact And.right
  | succ n ih =>
    rw [level, List.mem_flatMap]
    constructor
    · rintro ⟨dir, hdir, hrel⟩
      obtain ⟨m, rfl, -, hm⟩ := h.mem_children.mp hrel
      exact ⟨hm, by rw [List.length_cons, (ih.mp hdir).2]⟩
    · rintro ⟨hrel, hlen⟩
      obtain ⟨m, dir, rfl⟩ := List.exists_cons_of_ne_nil (List.ne_nil_of_length_eq_add_one hlen)
      have hdir : t.kind dir = some .dir := by
        have hentry := t.fs.parent m (dir ++ t.root) (by simpa [kind] using hrel)
        rw [kind, hentry]
        rfl
      refine ⟨dir, ih.mpr ⟨by rw [hdir]; rfl, by simpa using hlen⟩, ?_⟩
      exact h.mem_children.mpr ⟨m, rfl, hdir, hrel⟩

lemma length_le (hrel : (t.kind rel).isSome) : rel.length ≤ t.fs.dom.sup List.length := by
  have hdom : rel ++ t.root ∈ t.fs.dom := (t.fs.mem_dom _).mpr (by simpa [kind] using hrel)
  have hle : (rel ++ t.root).length ≤ t.fs.dom.sup List.length := Finset.le_sup hdom
  rw [List.length_append] at hle
  omega

lemma level_eq_nil (h : t.Listing order) :
    level (t.children order) [] (t.fs.dom.sup List.length + 1) = [] := by
  refine List.eq_nil_iff_forall_not_mem.mpr fun rel hrel => ?_
  obtain ⟨hsome, hlen⟩ := h.mem_level.mp hrel
  have hle := length_le hsome
  omega

end Source.Listing

/-! ## The invariant -/

/-- What had to be done for the first node was done. -/
def MainPc.performed : MainPc → Bool
  | .opendir | .readdir | .closedir | .addLock | .addLink | .addUnlock => true
  | _ => false

/-- The places that the walk has queued for the directory `rel`, while it works on it. -/
def Sys.listed (t : Source) (order : Loc → List Name) (s : Sys) (rel : Loc) : List Loc :=
  match s.prog.pc with
  | .readdir => (s.world.dir.seen.reverse.filter isEntry).map (· :: rel)
  | .closedir => t.children order rel
  | _ => []

lemma Sys.listed_eq_nil {t : Source} {order : Loc → List Name} {s : Sys}
    (hread : s.prog.pc ≠ .readdir) (hclose : s.prog.pc ≠ .closedir) (rel : Loc) :
    s.listed t order rel = [] := by
  unfold listed
  split
  · contradiction
  · contradiction
  · rfl

/-- The walk is a traversal with a queue: behind the queue of the traversal are the places
that were listed for its first node. -/
structure Exploring (t : Source) (order : Loc → List Name) (es : List Effect) (s : Sys)
    (d : Places) (queue : List Loc) : Prop where
  traversal : Traversal (t.children order) [] d.done.reverse queue
  todo : d.todo = queue ++ queue.head?.toList.flatMap (s.listed t order)
  effects : es =
    (d.done.reverse ++ if s.prog.pc.performed then queue.head?.toList else []).map t.effect

namespace Exploring

variable {t : Source} {order : Loc → List Name} {es : List Effect} {s s' : Sys} {l : Label}
  {d : Places} {queue todo done : List Loc} {rel : Loc}

/-- A step that keeps the places, and does nothing more. -/
lemma keep (h : Exploring t order es s d queue)
    (hlisted : ∀ rel, s'.listed t order rel = s.listed t order rel)
    (hpc : s'.prog.pc.performed = s.prog.pc.performed) : Exploring t order es s' d queue where
  traversal := h.traversal
  todo := by rw [h.todo, funext hlisted]
  effects := by rw [hpc]; exact h.effects

/-- A step that lists nothing and does nothing to the first node. -/
lemma pass (h : Exploring t order es s d queue) (hmkdir : l ≠ .mkdir true) (hcopy : l ≠ .copyReg)
    (hat : s.prog.pc ≠ .readdir ∧ s.prog.pc ≠ .closedir)
    (hat' : s'.prog.pc ≠ .readdir ∧ s'.prog.pc ≠ .closedir)
    (hpc : s'.prog.pc.performed = s.prog.pc.performed) :
    ∃ queue', Exploring t order (es ++ s.prog.effects l) s' d queue' := by
  refine ⟨queue, ?_⟩
  rw [Prog.effects_of_ne hmkdir hcopy, List.append_nil]
  refine h.keep (fun rel => ?_) hpc
  rw [Sys.listed_eq_nil hat'.1 hat'.2, Sys.listed_eq_nil hat.1 hat.2]

/-- The head of the places is the head of the queue of the traversal. -/
lemma queue_eq (h : Exploring t order es s ⟨done, rel :: todo⟩ queue) : ∃ rest,
    queue = rel :: rest ∧ todo = rest ++ s.listed t order rel := by
  have htodo := h.todo
  cases queue with
  | nil => simp at htodo
  | cons r rest =>
    simp only [List.head?_cons, Option.toList_some, List.flatMap_cons, List.flatMap_nil,
      List.append_nil, List.cons_append, List.cons.injEq] at htodo
    obtain ⟨rfl, rfl⟩ := htodo
    exact ⟨rest, rfl, rfl⟩

/-- What had to be done for the first node is done. -/
lemma perform (h : Exploring t order es s ⟨done, rel :: todo⟩ queue)
    (hpc : s.prog.pc.performed = false) (hpc' : s'.prog.pc.performed = true)
    (hlisted : s.listed t order rel = []) (hlisted' : s'.listed t order rel = []) :
    Exploring t order (es ++ [t.effect rel]) s' ⟨done, rel :: todo⟩ queue := by
  obtain ⟨rest, rfl, htodo⟩ := h.queue_eq
  refine ⟨h.traversal, ?_, ?_⟩
  · simp [htodo, hlisted, hlisted']
  · rw [h.effects, hpc, hpc']
    simp

/-- The first node is done. -/
lemma finish (h : Exploring t order es s ⟨done, rel :: todo⟩ queue)
    (hpc : s.prog.pc.performed = true) (hlisted : s.listed t order rel = t.children order rel)
    (hpc' : s'.prog.pc = .walk) :
    ∃ queue', Exploring t order es s' ⟨rel :: done, todo⟩ queue' := by
  obtain ⟨rest, rfl, htodo⟩ := h.queue_eq
  refine ⟨rest ++ t.children order rel, ?_, ?_, ?_⟩
  · rw [List.reverse_cons]
    exact h.traversal.visit _ _ _
  · have hnil : s'.listed t order = fun _ => [] := by
      funext r
      rw [Sys.listed, hpc']
    rw [htodo, hlisted, hnil]
    simp
  · have heffects := h.effects
    rw [hpc] at heffects
    rw [heffects, hpc']
    simp [MainPc.performed]

/-- **One step of the traversal.** -/
theorem step (h : Exploring t order es s d queue) (hplain : t.Plain) (hw : Walked t s d)
    (hr : t.Run s)
    (hlists : s.ListsIn order l) (hstart : s.prog.pc.beforeStart = false)
    (hstep : s.step l = some s')
    (hended : s'.prog.aio.ended = none ∨ s'.prog.aio.ended = some (.exited 0)) :
    ∃ queue', Exploring t order (es ++ s.prog.effects l) s' (d.after l) queue' := by
  obtain ⟨-, hfires, hperm⟩ := Sys.fires_of_step hstep
  obtain ⟨p', w'⟩ := s'
  dsimp only at hfires hperm hended
  have hbelow : ∀ rel : Loc, s.prog.argv.below rel = (Node.mk t.srcName t.dstName).below rel := by
    intro rel
    rw [hr.argv]
  cases hfires with
  | fail | readdirExit => simp [Prog.fail, AioState.exit] at hended
  | aio act a ha =>
    refine ⟨queue, ?_⟩
    rw [Prog.effects_of_ne (by simp) (by simp), List.append_nil]
    refine h.keep (fun rel => ?_) rfl
    simp only [Sys.listed, hperm.dir_eq (by simp) (by simp)]
  | initManager hpc | startThread hpc => simp [hpc, MainPc.beforeStart] at hstart
  | walkEnd hpc | waitLock hpc | waitSet hpc | waitUnlock hpc | join hpc | destroy hpc
  | bumpReqCount hpc | addLock hpc | addLink _ hpc =>
    exact h.pass (by simp) (by simp) (by simp [hpc]) (by simp [hpc])
      (by simp [hpc, MainPc.performed])
  | statDir _ _ hpc | statReg _ _ hpc =>
    rw [Places.after, if_pos (by simp)]
    exact h.pass (by simp) (by simp) (by simp [hpc]) (by simp) (by simp [hpc, MainPc.performed])
  | statOther curr rest k hpc hqueue hdir hreg =>
    obtain ⟨rel, todo, hd, -⟩ := hw.walk.exists_head hqueue
    have hk := hw.stat_head hr hperm (by rw [hd]; rfl)
    rcases Source.kind_eq hplain hk with rfl | rfl
    · exact absurd rfl hdir
    · exact absurd rfl hreg
  | mkdir hpc =>
    obtain ⟨rel, todo, hd⟩ := hw.walk.exists_head_of_inBody hr.ready (by rw [hpc]; rfl)
    have hrel : rel ∈ d.todo.head? := by rw [hd]; rfl
    have hkind := hw.kind_head hr hrel (by rw [hpc]; rfl)
    have hqueue := hw.walk.queue
    rw [hd] at h hqueue ⊢
    -- the effect of the head: its directory is made
    have heffect : s.prog.effects (.mkdir true) = [t.effect rel] := by
      rw [Prog.effects, hqueue, Source.effect, if_pos hkind, ← hbelow]
      rfl
    rw [heffect]
    refine ⟨queue, h.perform (by rw [hpc]; rfl) rfl ?_ ?_⟩
    · exact Sys.listed_eq_nil (by simp [hpc]) (by simp [hpc]) rel
    · exact Sys.listed_eq_nil (by simp) (by simp) rel
  | copyReg curr rest hpc hqueue =>
    obtain ⟨rel, todo, hd, hcurr, -⟩ := hw.walk.exists_head hqueue
    have hrel : rel ∈ d.todo.head? := by rw [hd]; rfl
    have hkind := hw.kind_head hr hrel (by rw [hpc]; rfl)
    -- the effect of the head: its request is made
    have heffect : s.prog.effects .copyReg = [t.effect rel] := by
      rw [Prog.effects, hqueue, Source.effect, if_neg (by simp [hkind]), ← hbelow, ← hcurr]
      rfl
    rw [heffect, hd]
    rw [hd] at h
    refine ⟨queue, h.perform (by rw [hpc]; rfl) rfl ?_ ?_⟩
    · exact Sys.listed_eq_nil (by simp [hpc]) (by simp [hpc]) rel
    · exact Sys.listed_eq_nil (by simp) (by simp) rel
  | opendir hpc =>
    refine ⟨queue, ?_⟩
    rw [Prog.effects_of_ne (by simp) (by simp), List.append_nil]
    refine h.keep (fun rel => ?_) (by simp [hpc, MainPc.performed])
    rw [Sys.listed_eq_nil (s := s) (by simp [hpc]) (by simp [hpc])]
    cases hperm with
    | opendir => rfl
    | other _ _ _ hopendir => exact absurd rfl hopendir
  | readdirSkip name dtype hpc hname =>
    refine ⟨queue, ?_⟩
    rw [Prog.effects_of_ne (by simp) (by simp), List.append_nil, Places.after, if_pos hname]
    refine h.keep (fun rel => ?_) rfl
    cases hperm with
    | entry => simp [Sys.listed, hpc, isEntry, hname]
    | other _ _ _ _ hentry => exact absurd rfl (hentry _ _)
  | readdirEnqueue curr rest name dtype hpc hqueue hname =>
    obtain ⟨rel, todo, hd, -⟩ := hw.walk.exists_head hqueue
    rw [hd] at h ⊢
    obtain ⟨rest', rfl, htodo⟩ := h.queue_eq
    refine ⟨rel :: rest', ?_⟩
    rw [Prog.effects_of_ne (by simp) (by simp), List.append_nil, Places.after, if_neg hname]
    cases hperm with
    | entry =>
      refine ⟨h.traversal, ?_, h.effects⟩
      simp [htodo, Sys.listed, hpc, isEntry, hname]
    | other _ _ _ _ hentry => exact absurd rfl (hentry _ _)
  | readdirEnd hpc =>
    obtain ⟨rel, todo, hd⟩ := hw.walk.exists_head_of_inBody hr.ready (by rw [hpc]; rfl)
    obtain ⟨hkind, hloc⟩ := hw.readdir_at hr hpc (by rw [hd]; rfl)
    rw [hd] at h ⊢
    obtain ⟨rest', rfl, htodo⟩ := h.queue_eq
    refine ⟨rel :: rest', ?_⟩
    rw [Prog.effects_of_ne (by simp) (by simp), List.append_nil]
    -- the directory is listed to its end, in the given order
    have hseen : s.world.dir.seen.reverse = order (rel ++ t.root) := hloc ▸ hlists
    have hheads := h.effects
    rw [hpc] at hheads
    refine ⟨h.traversal, ?_, hheads⟩
    simp [Places.after, htodo, Sys.listed, hpc, Source.children, hkind, ← hseen]
  | closedir hpc =>
    obtain ⟨rel, todo, hd⟩ := hw.walk.exists_head_of_inBody hr.ready (by rw [hpc]; rfl)
    rw [hd] at h ⊢
    rw [Prog.effects_of_ne (by simp) (by simp), List.append_nil]
    exact h.finish (by rw [hpc]; rfl) (by rw [Sys.listed, hpc]) rfl
  | addUnlock hpc =>
    obtain ⟨rel, todo, hd⟩ := hw.walk.exists_head_of_inBody hr.ready (by rw [hpc]; rfl)
    have hrel : rel ∈ d.todo.head? := by rw [hd]; rfl
    have hkind := hw.kind_head hr hrel (by rw [hpc]; rfl)
    rw [hd] at h ⊢
    rw [Prog.effects_of_ne (by simp) (by simp), List.append_nil]
    refine h.finish (by rw [hpc]; rfl) ?_ rfl
    rw [Sys.listed_eq_nil (by simp [hpc]) (by simp [hpc]), Source.children,
      if_neg (by simp [hkind])]

end Exploring

end Cpr
