/-
# What the old program reports

A failure in a child goes nowhere: the sign test on the unsigned result never fails,
`copy_reg` ignores what `aio_copy_p` returned, the child exits with status 0, and the parent
does not look at the status.  So `main` returns 0 over failed copies; only where nothing fails
in a child has a return value of 0 its meaning.
-/
import Cpr.Old.Step

namespace Cpr

open Transition Unix

/-- All bytes of the file were read and written. -/
structure Child.Complete (c : Child) : Prop where
  read : c.readRes = some (toUlong c.fsize)
  written : c.writeRes = some (toUlong c.fsize)

/-- The call of the child succeeds, and the transfer moves all bytes. -/
def Child.Succeeds (c : Child) : ChildAct → Prop
  | .ioSetup ok => ok = true
  | .openSrc o => 0 ≤ o.fd ∧ o.stSize ≠ none ∧ o.buf ≠ 0
  | .readSubmit ret | .writeSubmit ret => ret = 1
  | .readReap _ returned | .writeReap _ returned => returned = true
  | .openDst fd => 0 ≤ fd
  | .complete _ res => res = toUlong c.fsize
  | .ioDestroy _ => True

/-- Nothing fails in a child, nor does a `fork`. -/
def OldProg.ChildrenSucceed (p : OldProg) : OldLabel → Prop
  | .fork ok => ok = true
  | .child i act => ∀ c ∈ p.children[i]?, c.Succeeds act
  | _ => True

instance (c : Child) (act : ChildAct) : Decidable (c.Succeeds act) := by
  induction act using ChildAct.casesOn <;> (unfold Child.Succeeds; infer_instance)

instance (p : OldProg) (l : OldLabel) : Decidable (p.ChildrenSucceed l) := by
  induction l using OldLabel.casesOn <;> (unfold OldProg.ChildrenSucceed; infer_instance)

/-- How far a child got, in which nothing has failed. -/
structure OnTrack (c : Child) : Prop where
  flight : ∀ op ∈ c.flight, ∀ n ∈ op.result, n = toUlong c.fsize
  read : c.pc = .openDst ∨ c.pc = .writeSubmit ∨ c.pc = .writeSpin ∨ c.pc = .ioDestroy ∨
    c.pc = .exited → c.readRes = some (toUlong c.fsize)
  written : c.pc = .ioDestroy ∨ c.pc = .exited → c.writeRes = some (toUlong c.fsize)
  empty : c.pc = .ioSetup ∨ c.pc = .openSrc ∨ c.pc = .readSubmit → c.flight = []

namespace OnTrack

variable {c c' : Child} {act : ChildAct}

lemma new (node : Node) : OnTrack (.new node) := by
  constructor <;> simp [Child.new]

/-- The event of the only kind of operation that is there. -/
lemma reported_eq (h : OnTrack c) {e : IoEvent} (he : c.Fills e true) :
    Child.reported e true = some (toUlong c.fsize) :=
  congrArg some (h.flight e.op (he rfl) e.res rfl)

lemma left (h : OnTrack c) (e : IoEvent) : ∀ op ∈ c.left e true, ∀ n ∈ op.result,
    n = toUlong c.fsize := fun op hop => h.flight op (List.mem_of_mem_erase hop)

lemma pending {req : Iocb} (h : OnTrack c) : ∀ op ∈ Op.pending req :: c.flight, ∀ n ∈ op.result,
    n = toUlong c.fsize := by
  intro op hop
  rcases List.mem_cons.mp hop with rfl | hop
  · simp [Op.pending]
  · exact h.flight op hop

theorem step (h : OnTrack c) (hok : c.Succeeds act) (hfires : c.Fires act c') : OnTrack c' := by
  cases hfires with
  | ioSetup hpc =>
    exact ⟨h.flight, by simp, by simp, fun _ => h.empty (Or.inl hpc)⟩
  | ioSetupFail => cases hok
  | openSrc o hpc =>
    obtain ⟨hfd, hsize, hbuf⟩ := hok
    obtain ⟨n, hn⟩ := Option.ne_none_iff_exists'.mp hsize
    have hnil := h.empty (Or.inr (Or.inl hpc))
    simp only [Child.openSrc, if_neg (not_lt.mpr hfd), hn, if_neg hbuf]
    exact ⟨by simp [hnil], by simp, by simp, fun _ => hnil⟩
  | readSubmit ret hpc =>
    obtain rfl : ret = 1 := hok
    rw [Child.submit, if_neg (by simp)]
    exact ⟨h.pending, by simp, by simp, by simp⟩
  | readReap e returned hpc he =>
    obtain rfl : returned = true := hok
    rw [Child.readReap_eq]
    exact ⟨h.left e, fun _ => h.reported_eq he, by simp, by simp⟩
  | openDst fd hpc =>
    rw [Child.openDst, if_neg (not_lt.mpr hok)]
    exact ⟨h.flight, fun _ => h.read (Or.inl hpc), by simp, by simp⟩
  | writeSubmit ret hpc =>
    obtain rfl : ret = 1 := hok
    rw [Child.submit, if_neg (by simp)]
    exact ⟨h.pending, fun _ => h.read (Or.inr (Or.inl hpc)), by simp, by simp⟩
  | writeReap e returned hpc he =>
    obtain rfl : returned = true := hok
    rw [Child.writeReap_eq]
    exact ⟨h.left e, fun _ => h.read (by simp [hpc]), fun _ => h.reported_eq he, by simp⟩
  | ioDestroy ok hpc =>
    exact ⟨h.flight, fun _ => h.read (by simp [hpc]), fun _ => h.written (Or.inl hpc),
      by simp [Child.exit]⟩
  | complete op res hpc hmem =>
    have hne : c.flight ≠ [] := List.ne_nil_of_mem hmem
    refine ⟨fun op' hop' n hn => ?_, h.read, h.written, fun hpc' => absurd (h.empty hpc') hne⟩
    rcases List.mem_cons.mp hop' with rfl | hop'
    · obtain rfl := Option.some.inj hn
      exact hok
    · exact h.flight op' (List.mem_of_mem_erase hop') n hn

lemma complete (h : OnTrack c) (hpc : c.pc = .exited) : c.Complete :=
  ⟨h.read (by simp [hpc]), h.written (Or.inr hpc)⟩

end OnTrack

/-- A run of the parent in which nothing fails in a child. -/
structure Attended (p : OldProg) : Prop where
  onTrack : ∀ c ∈ p.children, OnTrack c
  reached : p.reached = (p.children.map (·.node)).reverse
  waited : ∀ i ∈ p.waited, ∃ c, p.children[i]? = some c ∧ c.pc = .exited
  ended : p.ended = some 0 → ∀ i < p.children.length, i ∈ p.waited

namespace Attended

variable {p p' : OldProg} {l : OldLabel} {srcName dstName : CStr}

lemma init : Attended (.init srcName dstName) := by
  constructor <;> simp [OldProg.init]

/-- A step of the parent that makes no child and waits for none. -/
lemma keep (h : Attended p) (hchildren : p'.children = p.children)
    (hreached : p'.reached = p.reached) (hwaited : p'.waited = p.waited)
    (hended : p'.ended = some 0 → p.ended = some 0) : Attended p' where
  onTrack := by rw [hchildren]; exact h.onTrack
  reached := by rw [hreached, hchildren]; exact h.reached
  waited := by rw [hwaited, hchildren]; exact h.waited
  ended hend := by rw [hwaited, hchildren]; exact h.ended (hended hend)

/-- A step of a child. -/
lemma child (h : Attended p) {i : ℕ} {c c' : Child} {act : ChildAct} (hc : p.children[i]? = some c)
    (hok : c.Succeeds act) (hfires : c.Fires act c') :
    Attended { p with children := p.children.set i c' } where
  onTrack d hd := by
    rcases List.mem_or_eq_of_mem_set hd with hd | rfl
    · exact h.onTrack d hd
    · exact (h.onTrack c (List.mem_of_getElem? hc)).step hok hfires
  reached := by
    rw [Child.map_node_set hc hfires]
    exact h.reached
  waited j hj := by
    obtain ⟨d, hd, hexited⟩ := h.waited j hj
    have hne : i ≠ j := by
      rintro rfl
      obtain rfl := Option.some.inj (hc.symm.trans hd)
      exact Child.not_exited_of_fires hfires hexited
    exact ⟨d, by rw [List.getElem?_set_ne hne, hd], hexited⟩
  ended hend j hj := h.ended hend j (by simpa using hj)

theorem step (h : Attended p) (hok : p.ChildrenSucceed l) (hstep : p.step l = some p') :
    Attended p' := by
  cases OldProg.fires_of_step hstep with
  | child i act c c' hc hfires => exact h.child hc (hok c hc) hfires
  | fail => exact h.keep rfl rfl rfl (by simp [OldProg.exit])
  | fork curr rest ok hended =>
    obtain rfl : ok = true := hok
    refine ⟨fun c hc => ?_, ?_, fun i hi => ?_, by simp [OldProg.copyReg, OldProg.next, hended]⟩
    · rcases List.mem_append.mp hc with hc | hc
      · exact h.onTrack c hc
      · obtain rfl := List.mem_singleton.mp hc
        exact .new curr
    · simp [OldProg.copyReg, h.reached, Child.new]
    · obtain ⟨c, hc, hexited⟩ := h.waited i hi
      refine ⟨c, ?_, hexited⟩
      rw [OldProg.copyReg, if_pos rfl]
      exact (List.getElem?_append_left (List.getElem?_eq_some_iff.mp hc).1).trans hc
  | wait i c hended hpc hc hexited =>
    refine ⟨h.onTrack, h.reached, fun j hj => ?_, by simp [hended]⟩
    rcases List.mem_cons.mp hj with rfl | hj
    · exact ⟨c, hc, hexited⟩
    · exact h.waited j hj
  | waitEnd _ _ hall => exact ⟨h.onTrack, h.reached, h.waited, fun _ => hall⟩
  | _ => exact h.keep rfl rfl rfl id

theorem of_reaches (h : Reaches OldProg.step OldProg.ChildrenSucceed (.init srcName dstName) p) :
    Attended p :=
  h.invariant (fun h hok hstep => h.step hok hstep) init

/-- Every child has exited when `main` returns 0. -/
lemma exited (h : Attended p) (hended : p.ended = some 0) : ∀ c ∈ p.children, c.pc = .exited := by
  intro c hc
  obtain ⟨i, hi, rfl⟩ := List.getElem_of_mem hc
  obtain ⟨d, hd, hexited⟩ := h.waited i (h.ended hended i hi)
  rw [List.getElem?_eq_getElem hi] at hd
  rwa [Option.some.inj hd]

end Attended

section

variable {p : OldProg} {srcName dstName : CStr}

end

end Cpr
