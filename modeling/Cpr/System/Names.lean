/-
# The names of the nodes

A node has a place: the names on the way to it from the arguments, innermost first.  The
names of the node are the arguments, each followed by the same suffix, and the suffix
determines the place.  No place is met twice, and `copy_reg` makes one request for a place:
so no two requests have one destination.
-/
import Cpr.Lib.CString
import Cpr.Program.Fifo
import Cpr.System.Tidy

namespace Cpr

open Transition Unix

/-! ### The strings -/

/-- What follows an argument in the path of a place. -/
def suffix (rel : Loc) : Path := extend [] rel

lemma extend_eq_append (p : Path) (rel : Loc) : extend p rel = p ++ suffix rel := by
  induction rel with
  | nil => exact (List.append_nil p).symm
  | cons n rel ih =>
    rw [extend_cons, ih]
    exact List.append_assoc p (suffix rel) ('/' :: n)

lemma below_eq (argv : Node) (rel : Loc) :
    argv.below rel = ⟨argv.srcName ++ suffix rel, argv.dstName ++ suffix rel⟩ := by
  rw [Node.below, extend_eq_append, extend_eq_append]

/-- The suffix of a place determines the place. -/
lemma suffix_injective {rel rel' : Loc} (hrel : ∀ n ∈ rel, LegalName n)
    (hrel' : ∀ n ∈ rel', LegalName n) (h : suffix rel = suffix rel') : rel = rel' :=
  extend_injective hrel hrel' h

/-- The buffer that `copy_dir` makes for a name of a child: `malloc`, `strcpy` and two
`strcat`. -/
def nameBuffer (nameIn entName : CStr) : Option (List (Byte Char)) :=
  (CString.strcpy (CString.malloc (nameIn.length + entName.length + 2)) nameIn).bind fun b =>
    (CString.strcat b ['/']).bind fun b => CString.strcat b entName

/-- The buffer for a name has the name, its terminator and no other byte. -/
structure ExactBuffer (nameIn entName out : CStr) : Prop where
  content : nameBuffer nameIn entName = some (CString.terminated out)
  length : (CString.terminated out).length = nameIn.length + entName.length + 2

/-- **The buffer is filled exactly**, with the name of the child and its terminator. -/
lemma ExactBuffer.join (nameIn entName : CStr) :
    ExactBuffer nameIn entName (join nameIn entName) := by
  have hcpy : CString.strcpy (CString.malloc (nameIn.length + entName.length + 2)) nameIn =
      some (CString.filled nameIn (entName.length + 1)) := CString.strcpy_malloc (by omega)
  have hslash : CString.strcat (CString.filled nameIn (entName.length + 1)) ['/'] =
      some (CString.filled (nameIn ++ ['/']) entName.length) :=
    CString.strcat_filled (by rw [List.length_singleton, Nat.add_comm])
  have hname : CString.strcat (CString.filled (nameIn ++ ['/']) entName.length) entName =
      some (CString.filled (nameIn ++ ['/'] ++ entName) 0) := CString.strcat_filled rfl
  constructor
  · rw [nameBuffer, hcpy, Option.bind_some, hslash, Option.bind_some, hname, CString.filled_zero,
      List.append_assoc]
    rfl
  · simp [Unix.join]
    omega

/-! ### The places -/

/-- The places after a step. -/
def Fifo.follow (f : Fifo Loc) (l : Label) : Fifo Loc := f.after [] (fun rel n => n :: rel) l

/-- The places of the nodes of `copy_internal`. -/
def Fifo.places (ls : List Label) : Fifo Loc := run [] (fun rel n => n :: rel) ls

lemma Fifo.places_concat (ls : List Label) (l : Label) :
    places (ls ++ [l]) = (places ls).follow l := run_concat

lemma Fifo.nodes_eq (argv : Node) (ls : List Label) :
    nodes argv ls = (places ls).map argv.below := by
  have h : (run [] (fun rel n => n :: rel) ls).map argv.below =
      run (argv.below []) Prog.child ls := map_run fun _ _ => rfl
  exact h.symm

namespace Fifo

variable {α : Type*} {f : Fifo α} {root a : α} {child : α → Name → α} {rest : List α} {l : Label}

lemma done_after (hle : f.processed ≤ f.enqueued.length) (hends : l.endsIteration = false) :
    (f.after root child l).done = f.done := by
  rw [done, after, if_neg (by simp [hends]), Nat.add_zero, List.take_append_of_le_length hle]
  rfl

lemma done_after_of_ends (hends : l.endsIteration = true) (hpending : f.pending = a :: rest) :
    (f.after root child l).done = f.done ++ [a] := by
  rw [done, after, if_pos hends, enqueues_of_ends hends, List.append_nil, List.take_add, done]
  rw [pending] at hpending
  rw [hpending]
  rfl

lemma not_mem_done (h : f.enqueued.Nodup) (hpending : a ∈ f.pending.head?) : a ∉ f.done := by
  rw [← done_append_pending] at h
  exact fun hdone => (List.nodup_append.mp h).2.2 a hdone a (List.mem_of_mem_head? hpending) rfl

lemma mem_enqueued_of_pending (hpending : a ∈ f.pending.head?) : a ∈ f.enqueued :=
  List.mem_of_mem_drop (List.mem_of_mem_head? hpending)

end Fifo

/-- The places are met once, each after its parent. -/
structure Listed (s : Sys) (f : Fifo Loc) : Prop where
  nodup : f.enqueued.Nodup
  legal : ∀ rel ∈ f.enqueued, ∀ n ∈ rel, LegalName n
  parent : ∀ n rel, n :: rel ∈ f.enqueued → rel ∈ f.done ∨ (rel ∈ f.pending.head? ∧
    (s.prog.pc = .closedir ∨ (s.prog.pc = .readdir ∧ n ∈ s.world.dir.seen)))

/-- The places are those of the queue. -/
def Follows (s : Sys) (f : Fifo Loc) : Prop := (f.map s.prog.argv.below).Describes s.prog

section

variable {s s' : Sys} {f : Fifo Loc} {l : Label} {rel : Loc} {todo : List Loc}

/-- Nothing is inserted and nothing is processed. -/
lemma Fifo.follow_eq_self (hends : l.endsIteration = false)
    (hnone : ∀ curr, l.enqueues [] (fun (rel : Loc) n => n :: rel) curr = []) : f.follow l = f := by
  rw [follow, after, hends, hnone, List.append_nil]
  rfl

lemma Follows.head (hf : Follows s f) {curr : Node} {rest : List Node}
    (hqueue : s.prog.queue = curr :: rest) :
    ∃ rel todo, f.pending = rel :: todo ∧ curr = s.prog.argv.below rel := by
  have hmap := hf.queue.symm.trans hqueue
  rw [Fifo.pending_map, List.map_eq_cons_iff] at hmap
  obtain ⟨rel, todo, hpending, hcurr, -⟩ := hmap
  exact ⟨rel, todo, hpending, hcurr.symm⟩

/-- At the end of an iteration there is a first place. -/
lemma Follows.head_of_ends (hf : Follows s f) (hlocks : Locks s.prog)
    (hfires : Prog.Fires s.prog l s'.prog) (hends : l.endsIteration = true) :
    ∃ rel todo, f.pending = rel :: todo := by
  obtain ⟨curr, rest, hqueue⟩ := List.exists_cons_of_ne_nil
    (Prog.queue_ne_nil_of_ends hfires hlocks.inBody hends)
  obtain ⟨rel, todo, hpending, -⟩ := hf.head hqueue
  exact ⟨rel, todo, hpending⟩

lemma Follows.of_exec {fs : Fs} {cwd : Loc} {srcName dstName : CStr} {batchSize : ℤ}
    {ls : List Label}
    (h : exec Sys.step (Sys.init fs cwd srcName dstName batchSize) ls = some s) :
    Follows s (Fifo.places ls) := by
  rw [Follows, Sys.argv_eq (reaches_of_exec (fun _ _ => trivial) h), ← Fifo.nodes_eq]
  exact .of_exec (Sys.prog_exec h)

lemma Follows.le (hf : Follows s f) : f.processed ≤ f.enqueued.length := by
  have hle := hf.2
  rwa [Fifo.map, List.length_map] at hle

namespace Listed

/-- A step that keeps the queue. -/
lemma keep (h : Listed s f) (hclosedir : s.prog.pc = .closedir → s'.prog.pc = .closedir)
    (hreaddir : s.prog.pc = .readdir → s'.prog.pc = .closedir ∨
      (s'.prog.pc = .readdir ∧ s.world.dir.seen ⊆ s'.world.dir.seen)) : Listed s' f where
  nodup := h.nodup
  legal := h.legal
  parent n rel hrel := by
    rcases h.parent n rel hrel with hdone | ⟨hhead, hpc | ⟨hpc, hn⟩⟩
    · exact Or.inl hdone
    · exact Or.inr ⟨hhead, Or.inl (hclosedir hpc)⟩
    · rcases hreaddir hpc with hpc' | ⟨hpc', hseen⟩
      · exact Or.inr ⟨hhead, Or.inl hpc'⟩
      · exact Or.inr ⟨hhead, Or.inr ⟨hpc', hseen hn⟩⟩

/-- The first place of the queue is done. -/
lemma finish (h : Listed s f) (hends : l.endsIteration = true)
    (hpending : f.pending = rel :: todo) : Listed s' (f.follow l) := by
  have henqueued : (f.follow l).enqueued = f.enqueued := Fifo.enqueued_after_of_ends hends
  refine ⟨henqueued ▸ h.nodup, henqueued ▸ h.legal, fun n r hr => ?_⟩
  rw [henqueued] at hr
  rw [Fifo.follow, Fifo.done_after_of_ends hends hpending]
  refine Or.inl (List.mem_append.mpr ?_)
  rcases h.parent n r hr with hdone | ⟨hhead, -⟩
  · exact Or.inl hdone
  · rw [hpending] at hhead
    exact Or.inr (List.mem_singleton.mpr (Option.some.inj hhead).symm)

/-- `readdir` returned a new legal name. -/
lemma enqueue (h : Listed s f) (hf : Follows s f) (hpc : s.prog.pc = .readdir)
    (hpending : f.pending = rel :: todo) {name : Name} (hname : LegalName name)
    (hseen : name ∉ s.world.dir.seen) (hends : l.endsIteration = false)
    (hnew : l.enqueues [] (fun (rel : Loc) n => n :: rel) (some rel) = [name :: rel])
    (hpc' : s'.prog.pc = .readdir) (hdir : s'.world.dir.seen = name :: s.world.dir.seen) :
    Listed s' (f.follow l) := by
  have henqueued : (f.follow l).enqueued = f.enqueued ++ [name :: rel] := by
    rw [Fifo.follow, Fifo.after, hpending, List.head?_cons, hnew]
  have hhead : rel ∈ f.pending.head? := by rw [hpending]; rfl
  have hhead' : rel ∈ (f.follow l).pending.head? := by
    rw [Fifo.follow, Fifo.pending_after hf.le, Label.onQueue, hends, hpending]
    rfl
  have hnot : name :: rel ∉ f.enqueued := by
    intro hmem
    rcases h.parent name rel hmem with hdone | ⟨-, hcl | ⟨-, hn⟩⟩
    · exact Fifo.not_mem_done h.nodup hhead hdone
    · simp [hpc] at hcl
    · exact hseen hn
  refine ⟨?_, fun r hr n hn => ?_, fun n r hr => ?_⟩
  · rw [henqueued]
    exact List.nodup_append.mpr ⟨h.nodup, List.nodup_singleton _, fun r hr r' hr' => by
      rw [List.mem_singleton.mp hr']
      exact fun heq => hnot (heq ▸ hr)⟩
  · rw [henqueued] at hr
    rcases List.mem_append.mp hr with hr | hr
    · exact h.legal r hr n hn
    · rw [List.mem_singleton.mp hr] at hn
      rcases List.mem_cons.mp hn with rfl | hn
      · exact hname
      · exact h.legal rel (Fifo.mem_enqueued_of_pending hhead) n hn
  · rw [henqueued] at hr
    rw [Fifo.follow, Fifo.done_after hf.le hends]
    rcases List.mem_append.mp hr with hr | hr
    · rcases h.parent n r hr with hdone | ⟨hr', hcl | ⟨-, hn⟩⟩
      · exact Or.inl hdone
      · simp [hpc] at hcl
      · obtain rfl : rel = r := Option.some.inj (hhead.symm.trans hr')
        refine Or.inr ⟨hhead', Or.inr ⟨hpc', ?_⟩⟩
        rw [hdir]
        exact List.mem_cons_of_mem _ hn
    · obtain ⟨rfl, rfl⟩ := List.cons.inj (List.mem_singleton.mp hr)
      refine Or.inr ⟨hhead', Or.inr ⟨hpc', ?_⟩⟩
      rw [hdir]
      exact List.mem_cons_self

/-- **One step of the walk meets no place twice**, whatever it answers. -/
theorem step (h : Listed s f) (hf : Follows s f) (hlocks : Locks s.prog)
    (hstep : s.step l = some s') : Listed s' (f.follow l) := by
  obtain ⟨hended, hfires, hperm⟩ := Sys.fires_of_step hstep
  by_cases hends : l.endsIteration = true
  · obtain ⟨rel, todo, hpending⟩ := hf.head_of_ends hlocks hfires hends
    exact h.finish hends hpending
  have hends : l.endsIteration = false := Bool.eq_false_iff.mpr hends
  obtain ⟨p', w'⟩ := s'
  dsimp only at hfires hperm
  cases hfires with
  | fail l hl hfails =>
    rw [Fifo.follow_eq_self hends (Prog.enqueues_of_fails hfails)]
    refine h.keep id fun hpc => Or.inr ⟨hpc, hperm.seen_subset ?_⟩
    rintro rfl
    cases hfails
  | startThread hpc =>
    have hempty : f = ⟨[], 0⟩ := by
      have hstart := hf.start (by rw [hpc]; rfl)
      rw [Fifo.map, Fifo.mk.injEq, List.map_eq_nil_iff] at hstart
      cases f
      rw [Fifo.mk.injEq]
      exact hstart
    rw [hempty]
    refine ⟨List.nodup_singleton _, fun r hr => ?_, fun n r hr => ?_⟩
    · obtain rfl := List.mem_singleton.mp hr
      simp
    · cases List.mem_singleton.mp hr
  | aio act a ha =>
    rw [Fifo.follow_eq_self hends fun _ => rfl]
    exact h.keep id fun hpc => Or.inr ⟨hpc, hperm.seen_subset (by simp)⟩
  | readdirSkip name dtype hpc hname =>
    rw [Fifo.follow_eq_self hends fun _ => if_pos hname]
    exact h.keep id fun hpc => Or.inr ⟨hpc, hperm.seen_subset (by simp)⟩
  | readdirExit name dtype hpc hname htype =>
    rw [Fifo.follow_eq_self hends fun _ => (if_neg hname).trans (if_neg htype)]
    exact h.keep id fun hpc => Or.inr ⟨hpc, hperm.seen_subset (by simp)⟩
  | readdirEnqueue curr rest name dtype hpc hqueue hname htype =>
    obtain ⟨rel, todo, hpending, -⟩ := hf.head hqueue
    cases hperm with
    | entry _ _ hlists =>
      -- the stream lists a name once, so the new place was not met before
      have hlegal := hlists.legal hname
      have hseen := ((hlists.resolve_left fun h => hname (Or.inl h)).resolve_left
        fun h => hname (Or.inr h)).1
      exact h.enqueue hf hpc hpending hlegal hseen hends ((if_neg hname).trans (if_pos htype)) hpc
        rfl
    | other _ _ _ _ hentry => exact absurd rfl (hentry _ _)
  | statOther curr rest k hpc hqueue hdir hreg => simp [Label.endsIteration, hdir, hreg] at hends
  | closedir | addUnlock => simp [Label.endsIteration] at hends
  | readdirEnd hpc =>
    rw [Fifo.follow_eq_self hends fun _ => rfl]
    exact h.keep (by simp [hpc]) fun _ => Or.inl rfl
  | destroy hpc =>
    rw [Fifo.follow_eq_self hends fun _ => rfl]
    exact h.keep (by simp [hpc]) (by simp [hpc])
  | _ =>
    rw [Fifo.follow_eq_self hends fun _ => rfl]
    refine h.keep ?_ ?_ <;> simp [*]

end Listed

/-! ### The requests -/

/-- The request of a place was made, and the place is no directory. -/
structure Served (s : Sys) (f : Fifo Loc) (rel : Loc) : Prop where
  met : rel ∈ f.enqueued
  leaf : ∀ n, n :: rel ∉ f.enqueued
  made : rel ∈ f.done ∨ (rel ∈ f.pending.head? ∧ s.prog.pc.requested = true)

/-- A request is for a place, and for no other request's destination. -/
structure Asked (s : Sys) (f : Fifo Loc) : Prop where
  served : ∀ r q, s.prog.aio.reqs.last? r = some q →
    ∃ rel, q.For (s.prog.argv.below rel) ∧ Served s f rel
  once : ∀ r r' q q', s.prog.aio.reqs.last? r = some q → s.prog.aio.reqs.last? r' = some q' →
    q.dstName = q'.dstName → r = r'

/-- Inside an iteration that made its request nothing is listed. -/
lemma requested_of_fires {p p' : Prog} (hfires : Prog.Fires p l p') (hpc : p.pc.requested = true)
    (hends : l.endsIteration = false) : p'.pc.requested = true := by
  cases hfires with
  | aio | fail => exact hpc
  | addLock | addLink => rfl
  | addUnlock => simp [Label.endsIteration] at hends
  | _ => simp_all [MainPc.requested]

/-- Only `readdir` inserts a child, and only of the first place. -/
lemma mem_enqueues {p p' : Prog} (hfires : Prog.Fires p l p') {n : Name} {curr : Option Loc}
    (h : n :: rel ∈ l.enqueues [] (fun rel n => n :: rel) curr) :
    rel ∈ curr ∧ p.pc = .readdir := by
  unfold Label.enqueues at h
  split at h
  · simp at h
  · split_ifs at h with hname htype
    · simp at h
    · obtain ⟨r, hr, heq⟩ := Option.map_eq_some_iff.mp (Option.mem_toList.mp h)
      obtain ⟨-, rfl⟩ := List.cons.inj heq
      refine ⟨hr, ?_⟩
      cases hfires with
      | fail _ _ hfails => cases hfails
      | readdirSkip _ _ hpc | readdirEnqueue _ _ _ _ hpc | readdirExit _ _ hpc => exact hpc
    · simp at h
  · simp at h

lemma Served.step (h : Served s f rel) (hl : Listed s f) (hf : Follows s f) (hlocks : Locks s.prog)
    (hfires : Prog.Fires s.prog l s'.prog) : Served s' (f.follow l) rel := by
  cases hends : l.endsIteration with
  | true =>
    obtain ⟨first, todo, hpending⟩ := hf.head_of_ends hlocks hfires hends
    have henqueued : (f.follow l).enqueued = f.enqueued := Fifo.enqueued_after_of_ends hends
    refine ⟨henqueued ▸ h.met, henqueued ▸ h.leaf, Or.inl ?_⟩
    rw [Fifo.follow, Fifo.done_after_of_ends hends hpending, List.mem_append]
    rcases h.made with hdone | ⟨hhead, -⟩
    · exact Or.inl hdone
    · rw [hpending] at hhead
      exact Or.inr (List.mem_singleton.mpr (Option.some.inj hhead).symm)
  | false =>
    refine ⟨List.mem_append_left _ h.met, fun n hn => ?_, ?_⟩
    · rcases List.mem_append.mp hn with hn | hn
      · exact h.leaf n hn
      · obtain ⟨hhead, hpc⟩ := mem_enqueues hfires hn
        rcases h.made with hdone | ⟨-, hreq⟩
        · exact Fifo.not_mem_done hl.nodup hhead hdone
        · simp [hpc, MainPc.requested] at hreq
    · rw [Fifo.follow, Fifo.done_after hf.le hends, Fifo.pending_after hf.le, Label.onQueue, hends]
      rcases h.made with hdone | ⟨hhead, hreq⟩
      · exact Or.inl hdone
      · obtain ⟨todo, htodo⟩ := List.head?_eq_some_iff.mp hhead
        exact Or.inr ⟨by rw [htodo]; rfl, requested_of_fires hfires hreq hends⟩

/-- Where a request comes from. -/
lemma request_cases (hf : Follows s f) (hgood : Good s.prog.aio) (hstep : s.step l = some s')
    {r : ReqId} {q' : CopyRequest} (hq' : s'.prog.aio.reqs.last? r = some q') :
    (∃ q, s.prog.aio.reqs.last? r = some q ∧ SameNames q q') ∨
      (l = .copyReg ∧ s.prog.pc = .copyReg ∧ r = s.prog.aio.reqs.next ∧
        ∃ rel ∈ f.pending.head?, q'.For (s.prog.argv.below rel)) := by
  obtain ⟨hended, hfires, -⟩ := Sys.fires_of_step hstep
  cases Prog.descends_of_fires hgood hended hfires hq' with
  | fresh curr rest hlabel hpc hqueue hr hsrc hdst =>
    obtain ⟨rel, todo, hpending, rfl⟩ := hf.head hqueue
    exact Or.inr ⟨hlabel, hpc, hr, rel, by rw [hpending]; rfl, hsrc, hdst⟩
  | old q hq names => exact Or.inl ⟨q, hq, names⟩
  | opened q fd hq names => exact Or.inl ⟨q, Heap.last?_of_get? hq, names⟩

namespace Asked

/-- The places of two requests for one destination are the same. -/
lemma eq_of_dstName (hl : Listed s f) {rel' : Loc} (hrel : rel ∈ f.enqueued)
    (hrel' : rel' ∈ f.enqueued)
    (h : (s.prog.argv.below rel).dstName = (s.prog.argv.below rel').dstName) : rel = rel' :=
  extend_injective (hl.legal rel hrel) (hl.legal rel' hrel') h

/-- A new request is for a destination of its own. -/
lemma ne_of_fresh (h : Asked s f) (hl : Listed s f) (hpc : s.prog.pc = .copyReg)
    (hhead : rel ∈ f.pending.head?) {r : ReqId} {q : CopyRequest}
    (hq : s.prog.aio.reqs.last? r = some q) : q.dstName ≠ (s.prog.argv.below rel).dstName := by
  obtain ⟨rel', hfor, hserved⟩ := h.served r q hq
  rw [hfor.dstName]
  intro heq
  obtain rfl := eq_of_dstName hl hserved.met (Fifo.mem_enqueued_of_pending hhead) heq
  rcases hserved.made with hdone | ⟨-, hreq⟩
  · exact Fifo.not_mem_done hl.nodup hhead hdone
  · simp [hpc, MainPc.requested] at hreq

theorem step (h : Asked s f) (hl : Listed s f) (hf : Follows s f) (hlocks : Locks s.prog)
    (hgood : Good s.prog.aio) (hstep : s.step l = some s') : Asked s' (f.follow l) := by
  obtain ⟨-, hfires, -⟩ := Sys.fires_of_step hstep
  have hargv := Prog.argv_of_fires hfires
  refine ⟨fun r q' hq' => ?_, fun r₁ r₂ q₁' q₂' hq₁' hq₂' heq => ?_⟩
  · rw [hargv]
    rcases request_cases hf hgood hstep hq' with ⟨q, hq, names⟩ | ⟨rfl, hpc, -, rel, hhead, hfor⟩
    · obtain ⟨rel, hfor, hserved⟩ := h.served r q hq
      exact ⟨rel, names.for hfor, hserved.step hl hf hlocks hfires⟩
    · rw [Fifo.follow_eq_self rfl fun _ => rfl]
      refine ⟨rel, hfor, Fifo.mem_enqueued_of_pending hhead, fun n hn => ?_, Or.inr ⟨hhead, ?_⟩⟩
      · rcases hl.parent n rel hn with hdone | ⟨-, hcl | ⟨hrd, -⟩⟩
        · exact Fifo.not_mem_done hl.nodup hhead hdone
        · simp [hpc] at hcl
        · simp [hpc] at hrd
      · generalize s'.prog = p' at hfires
        cases hfires with
        | fail _ _ hfails => cases hfails
        | copyReg => rfl
  · obtain ⟨q₁, hq₁, names₁⟩ | ⟨-, hpc₁, hr₁, rel₁, hhead₁, hfor₁⟩ :=
      request_cases hf hgood hstep hq₁'
    · obtain ⟨q₂, hq₂, names₂⟩ | ⟨-, hpc₂, -, rel₂, hhead₂, hfor₂⟩ :=
        request_cases hf hgood hstep hq₂'
      · exact h.once r₁ r₂ q₁ q₂ hq₁ hq₂ (by rw [← names₁.dstName, ← names₂.dstName, heq])
      · have hne := h.ne_of_fresh hl hpc₂ hhead₂ hq₁
        exact absurd (by rw [← names₁.dstName, heq, hfor₂.dstName]) hne
    · obtain ⟨q₂, hq₂, names₂⟩ | ⟨-, -, hr₂, -⟩ := request_cases hf hgood hstep hq₂'
      · have hne := h.ne_of_fresh hl hpc₁ hhead₁ hq₂
        exact absurd (by rw [← names₂.dstName, ← heq, hfor₁.dstName]) hne
      · exact hr₁.trans hr₂.symm

end Asked

end

end Cpr
