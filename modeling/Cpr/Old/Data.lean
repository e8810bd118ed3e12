/-
# The children's transfers

A child reads the file of its place into its own memory and writes it to the place in the
destination.  What the others do in between does not disturb it: they leave its descriptors
and its memory alone, and below the destination a file is empty or complete.
-/
import Cpr.Old.Walk
import Cpr.System.Data

namespace Cpr

open Transition Unix

/-- How far a child got with the file of a place, by its program counter. -/
inductive ChildStage (t : Setting) (fs : Fs) (proc : Proc) (c : Child) (rel : Loc) : ChildPc → Prop
  | ioSetup (idle : c.flight = []) : ChildStage t fs proc c rel .ioSetup
  | openSrc (idle : c.flight = []) : ChildStage t fs proc c rel .openSrc
  | readSubmit (idle : c.flight = []) (size : c.fsize = (t.transferred rel).length)
      (file : proc.files c.srcFd = some (rel ++ t.root)) : ChildStage t fs proc c rel .readSubmit
  /-- The read is in flight, -/
  | reading (size : c.fsize = (t.transferred rel).length)
      (file : proc.files c.srcFd = some (rel ++ t.root))
      (flight : c.flight = [.pending c.readReq]) :
      ChildStage t fs proc c rel .readSpin
  /-- or complete. -/
  | read (res : ℕ) (size : c.fsize = (t.transferred rel).length)
      (loaded : proc.mem.load c.buffer (t.transferred rel).length = t.transferred rel)
      (flight : c.flight = [⟨c.readReq, some res⟩]) : ChildStage t fs proc c rel .readSpin
  | openDst (idle : c.flight = []) (size : c.fsize = (t.transferred rel).length)
      (loaded : proc.mem.load c.buffer (t.transferred rel).length = t.transferred rel) :
      ChildStage t fs proc c rel .openDst
  | writeSubmit (idle : c.flight = []) (size : c.fsize = (t.transferred rel).length)
      (loaded : proc.mem.load c.buffer (t.transferred rel).length = t.transferred rel)
      (file : proc.files c.dstFd = some (rel ++ t.target))
      (reg : (fs.entry (rel ++ t.target)).map Entry.kind = some .reg) :
      ChildStage t fs proc c rel .writeSubmit
  | writing (size : c.fsize = (t.transferred rel).length)
      (loaded : proc.mem.load c.buffer (t.transferred rel).length = t.transferred rel)
      (file : proc.files c.dstFd = some (rel ++ t.target))
      (reg : (fs.entry (rel ++ t.target)).map Entry.kind = some .reg)
      (flight : c.flight = [.pending c.writeReq]) : ChildStage t fs proc c rel .writeSpin
  | wrote (res : ℕ) (written : fs.entry (rel ++ t.target) = some (.reg (t.transferred rel)))
      (flight : c.flight = [⟨c.writeReq, some res⟩]) : ChildStage t fs proc c rel .writeSpin
  | ioDestroy (idle : c.flight = [])
      (written : fs.entry (rel ++ t.target) = some (.reg (t.transferred rel))) :
      ChildStage t fs proc c rel .ioDestroy
  | exited (written : fs.entry (rel ++ t.target) = some (.reg (t.transferred rel))) :
      ChildStage t fs proc c rel .exited

/-- What the file system says about the files of a child for the place `rel`. -/
structure Site (t : Setting) (w : World) (node : Node) (rel : Loc) : Prop where
  src : ∀ loc, w.fs.openRead w.cwd node.srcName = some loc → loc = rel ++ t.root
  source : w.fs.content (rel ++ t.root) = t.content rel
  dst : ∀ loc fs', w.fs.openCreate w.cwd node.dstName = .ok (loc, fs') → loc = rel ++ t.target ∧
    (fs' = w.fs ∨ w.fs.Adds fs' (rel ++ t.target) (.reg [])) ∧
    (fs'.entry (rel ++ t.target)).map Entry.kind = some .reg
  content : ∀ bytes, w.fs.entry (rel ++ t.target) = some (.reg bytes) →
    bytes = [] ∨ bytes = t.transferred rel

/-! ## What the children do to the file system -/

/-- What a child for the place `rel` may do to the file system. -/
inductive ChildEffect (t : Setting) (rel : Loc) (fs : Fs) : Fs → Prop
  | none : ChildEffect t rel fs fs
  | created (fs' : Fs) (adds : fs.Adds fs' (rel ++ t.target) (.reg [])) : ChildEffect t rel fs fs'
  | filled : ChildEffect t rel fs (fs.setContent (rel ++ t.target) (t.transferred rel))

/-- The files below the destination are empty or complete. -/
def AllOrNone (t : Setting) (fs : Fs) : Prop :=
  ∀ rel bytes, fs.entry (rel ++ t.target) = some (.reg bytes) →
    bytes = [] ∨ bytes = t.transferred rel

namespace ChildEffect

variable {t : Setting} {fs fs' : Fs} {rel rel' : Loc}

lemma le (h : ChildEffect t rel fs fs') : fs.Le fs' := by
  cases h with
  | none => exact Fs.Le.refl fs
  | created _ adds => exact adds.le
  | filled => exact Fs.Le.setContent

lemma change (h : ChildEffect t rel fs fs') (hreg : t.kind rel = some .reg) : t.Change fs fs' := by
  cases h with
  | none => exact .refl fs
  | created _ adds => exact .of_adds adds hreg
  | filled => exact .setContent

/-- A complete file stays so. -/
lemma written (h : ChildEffect t rel fs fs')
    (hw : fs.entry (rel' ++ t.target) = some (.reg (t.transferred rel'))) :
    fs'.entry (rel' ++ t.target) = some (.reg (t.transferred rel')) := by
  by_cases heq : rel' = rel
  · subst heq
    cases h with
    | none => exact hw
    | created _ adds => exact absurd (adds.new.symm.trans hw) (by simp)
    | filled => exact Fs.entry_setContent_self hw
  · have hne : rel' ++ t.target ≠ rel ++ t.target := fun h => heq (List.append_cancel_right h)
    cases h with
    | none => exact hw
    | created _ adds => rw [adds.other _ hne, hw]
    | filled => rw [Fs.entry_setContent_of_ne hne, hw]

lemma allOrNone (h : ChildEffect t rel fs fs') (hp : AllOrNone t fs) : AllOrNone t fs' := by
  intro rel' bytes hb
  by_cases heq : rel' = rel
  · subst heq
    cases h with
    | none => exact hp rel' bytes hb
    | created _ adds =>
      rw [adds.self] at hb
      exact Or.inl (Entry.reg.inj (Option.some.inj hb)).symm
    | filled => exact Or.inr (Fs.eq_of_entry_setContent hb)
  · have hne : rel' ++ t.target ≠ rel ++ t.target := fun h => heq (List.append_cancel_right h)
    refine hp rel' bytes ?_
    cases h with
    | none => exact hb
    | created _ adds => rwa [adds.other _ hne] at hb
    | filled => rwa [Fs.entry_setContent_of_ne hne] at hb

end ChildEffect

/-! ## A child's steps -/

namespace ChildStage

variable {t : Setting} {fs fs' : Fs} {proc : Proc} {c c' : Child} {rel : Loc} {pc : ChildPc}
  {w w' : World} {act : ChildAct}

/-- The others leave a child where it is. -/
lemma keep (h : ChildStage t fs proc c rel pc) (hle : fs.Le fs')
    (hw : fs.entry (rel ++ t.target) = some (.reg (t.transferred rel)) →
      fs'.entry (rel ++ t.target) = some (.reg (t.transferred rel))) :
    ChildStage t fs' proc c rel pc := by
  cases h with
  | ioSetup idle => exact .ioSetup idle
  | openSrc idle => exact .openSrc idle
  | readSubmit idle size file => exact .readSubmit idle size file
  | reading size file flight => exact .reading size file flight
  | read res size loaded flight => exact .read res size loaded flight
  | openDst idle size loaded => exact .openDst idle size loaded
  | writeSubmit idle size loaded file reg =>
    exact .writeSubmit idle size loaded file (hle.kind reg)
  | writing size loaded file reg flight => exact .writing size loaded file (hle.kind reg) flight
  | wrote res written flight => exact .wrote res (hw written) flight
  | ioDestroy idle written => exact .ioDestroy idle (hw written)
  | exited written => exact .exited (hw written)

/-- The source is opened: the size and the buffer are set. -/
lemma step_openSrc (h : ChildStage t w.fs ⟨w.files, w.mem⟩ c rel .openSrc)
    (hsite : Site t w c.node rel) {o : AioState.ReadAnswer} (hposs : c.Possible o)
    (hok : ChildAct.Faultless (.openSrc o))
    (hsucc : c.Succeeds (.openSrc o)) (hperm : World.PermitsChild w c (.openSrc o) w') :
    ChildStage t w'.fs ⟨w'.files, w'.mem⟩ (c.openSrc o) rel (c.openSrc o).pc ∧
      ChildEffect t rel w.fs w'.fs := by
  obtain ⟨hfd, hsize, hbuf⟩ := hsucc
  obtain ⟨n, hn⟩ := Option.ne_none_iff_exists'.mp hsize
  cases h with
  | openSrc idle =>
    cases hperm with
    | noSrc _ hneg => omega
    | other _ hsrc => exact absurd rfl (hsrc o)
    | openSrc _ loc _ hopen hlen =>
      obtain rfl := hsite.src loc hopen
      have hlen := hlen n hn
      rw [hsite.source] at hlen
      have hnonneg : 0 ≤ toInt32 n := by
        rcases hok with hzero | hmap
        · obtain rfl : n = 0 := Option.some.inj (hn.symm.trans hzero)
          decide
        · exact toInt32_nonneg_of_mmap (hposs.2 n hn).2 hmap
      rw [hlen] at hnonneg
      simp only [Child.openSrc, if_neg (not_lt.mpr hfd), hn, if_neg hbuf]
      refine ⟨.readSubmit idle ?_ (if_pos rfl), .none⟩
      rw [hlen, Setting.length_transferred hnonneg]

/-- The destination is opened. -/
lemma step_openDst (h : ChildStage t w.fs ⟨w.files, w.mem⟩ c rel .openDst)
    (hsite : Site t w c.node rel) {fd : ℤ} (hok : 0 ≤ fd)
    (hperm : World.PermitsChild w c (.openDst fd) w') :
    ChildStage t w'.fs ⟨w'.files, w'.mem⟩ (c.openDst fd) rel (c.openDst fd).pc ∧
      ChildEffect t rel w.fs w'.fs := by
  cases h with
  | openDst idle size loaded =>
    cases hperm with
    | noDst _ hneg => omega
    | other _ _ hdst => exact absurd rfl (hdst fd)
    | openDst _ loc fs' _ hopen =>
      obtain ⟨rfl, hadds, hreg⟩ := hsite.dst loc fs' hopen
      rw [Child.openDst, if_neg (not_lt.mpr hok)]
      refine ⟨.writeSubmit idle size loaded (if_pos rfl) hreg, ?_⟩
      rcases hadds with rfl | hadds
      · exact .none
      · exact .created fs' hadds

/-- The number of bytes that a child asks for. -/
lemma toUlong_fsize (size : c.fsize = (t.transferred rel).length) :
    toUlong c.fsize = (t.transferred rel).length := by
  rw [size, toUlong_nat (t.length_transferred_lt rel)]

/-- The operation of a child in flight is complete. -/
lemma step_complete (h : ChildStage t w.fs ⟨w.files, w.mem⟩ c rel pc) (hsite : Site t w c.node rel)
    {op : Iocb} {res : ℕ} (hmem : .pending op ∈ c.flight) (hpc : pc ≠ .exited)
    (hok : res = toUlong c.fsize) :
    ChildStage t (w.transfer op res).fs ⟨(w.transfer op res).files, (w.transfer op res).mem⟩
      (c.complete op res) rel pc ∧ ChildEffect t rel w.fs (w.transfer op res).fs := by
  cases h with
  | ioSetup idle | openSrc idle | readSubmit idle | openDst idle | writeSubmit idle
  | ioDestroy idle =>
    rw [idle] at hmem
    exact absurd hmem List.not_mem_nil
  | exited => exact absurd rfl hpc
  | read _ _ _ flight | wrote _ _ flight =>
    rw [flight] at hmem
    simp [Op.pending] at hmem
  | reading size file flight =>
    obtain rfl : op = c.readReq := by simpa [flight, Op.pending] using hmem
    obtain rfl : res = c.readReq.nbytes := hok
    have hlen : c.readReq.nbytes = (t.transferred rel).length := toUlong_fsize size
    have hbytes : (w.fs.content (rel ++ t.root)).take c.readReq.nbytes = t.transferred rel := by
      rw [hsite.source, hlen, t.take_content]
    rw [World.transfer_pread file rfl rfl, hbytes]
    refine ⟨.read c.readReq.nbytes size Memory.load_store_self ?_, .none⟩
    rw [Child.complete, flight, List.erase_cons_head]
    rfl
  | writing size loaded file reg flight =>
    obtain rfl : op = c.writeReq := by simpa [flight, Op.pending] using hmem
    obtain rfl : res = c.writeReq.nbytes := hok
    obtain ⟨e, he, hk⟩ := Option.map_eq_some_iff.mp reg
    obtain ⟨old, rfl⟩ := Entry.kind_eq_reg.mp hk
    have hlen : c.writeReq.nbytes = (t.transferred rel).length := toUlong_fsize size
    have hload : w.mem.load c.writeReq.buf c.writeReq.nbytes = t.transferred rel := by
      rw [hlen]
      exact loaded
    have hold : w.fs.content (rel ++ t.target) = old := by rw [Fs.content, he]
    rw [World.transfer_pwrite file rfl rfl hload (by rw [hold]; exact hsite.content old he)]
    refine ⟨.wrote c.writeReq.nbytes (Fs.entry_setContent_self he) ?_, .filled⟩
    rw [Child.complete, flight, List.erase_cons_head]
    rfl

/-- **One step of a child.** -/
theorem step (h : ChildStage t w.fs ⟨w.files, w.mem⟩ c rel c.pc) (hsite : Site t w c.node rel)
    (hok : act.Faultless) (hsucc : c.Succeeds act) (hfires : c.Fires act c')
    (hperm : World.PermitsChild w c act w') :
    ChildStage t w'.fs ⟨w'.files, w'.mem⟩ c' rel c'.pc ∧ ChildEffect t rel w.fs w'.fs := by
  have hsame : (∀ o, act ≠ .openSrc o) → (∀ fd, act ≠ .openDst fd) →
      (∀ op n, act ≠ .complete op n) → w' = w := by
    intro hsrc hdst hcomplete
    cases hperm with
    | openSrc o => exact absurd rfl (hsrc o)
    | openDst fd => exact absurd rfl (hdst fd)
    | complete op n => exact absurd rfl (hcomplete op n)
    | _ => rfl
  cases hfires with
  | ioSetupFail => exact absurd hsucc (by simp [Child.Succeeds])
  | openSrc o hpc hposs =>
    rw [hpc] at h
    exact h.step_openSrc hsite hposs hok hsucc hperm
  | openDst fd hpc =>
    rw [hpc] at h
    exact h.step_openDst hsite hsucc hperm
  | complete op res hpc hmem =>
    cases hperm with
    | complete => exact h.step_complete hsite hmem hpc hsucc
    | other _ _ _ hcomplete => exact absurd rfl (hcomplete _ _)
  | ioSetup hpc =>
    rw [hsame (by simp) (by simp) (by simp)]
    rw [hpc] at h
    cases h with
    | ioSetup idle => exact ⟨.openSrc idle, .none⟩
  | readSubmit ret hpc =>
    rw [hsame (by simp) (by simp) (by simp)]
    rw [hpc] at h
    obtain rfl : ret = 1 := hsucc
    cases h with
    | readSubmit idle size file =>
      rw [Child.submit, if_neg (by simp), idle]
      exact ⟨.reading size file rfl, .none⟩
  | writeSubmit ret hpc =>
    rw [hsame (by simp) (by simp) (by simp)]
    rw [hpc] at h
    obtain rfl : ret = 1 := hsucc
    cases h with
    | writeSubmit idle size loaded file reg =>
      rw [Child.submit, if_neg (by simp), idle]
      exact ⟨.writing size loaded file reg rfl, .none⟩
  | readReap e returned hpc he =>
    rw [hsame (by simp) (by simp) (by simp)]
    rw [hpc] at h
    obtain rfl : returned = true := hsucc
    have hmem := he rfl
    rw [Child.readReap_eq]
    cases h with
    | reading size file flight =>
      rw [flight] at hmem
      simp [Op.pending, IoEvent.op] at hmem
    | read res size loaded flight =>
      refine ⟨.openDst ?_ size loaded, .none⟩
      rw [flight, List.mem_singleton] at hmem
      simp [Child.left, flight, hmem]
  | writeReap e returned hpc he =>
    rw [hsame (by simp) (by simp) (by simp)]
    rw [hpc] at h
    obtain rfl : returned = true := hsucc
    have hmem := he rfl
    rw [Child.writeReap_eq]
    cases h with
    | writing size loaded file reg flight =>
      rw [flight] at hmem
      simp [Op.pending, IoEvent.op] at hmem
    | wrote res written flight =>
      refine ⟨.ioDestroy ?_ written, .none⟩
      rw [flight, List.mem_singleton] at hmem
      simp [Child.left, flight, hmem]
  | ioDestroy ok hpc =>
    rw [hsame (by simp) (by simp) (by simp)]
    rw [hpc] at h
    cases h with
    | ioDestroy idle written => exact ⟨.exited written, .none⟩

end ChildStage

/-! ## The whole -/

/-- The node for a place of a setting. -/
def Setting.node (t : Setting) (rel : Loc) : Node := (⟨t.srcName, t.dstName⟩ : Node).below rel

/-- The children are on their way, and the files below the destination are theirs. -/
structure OldData (t : Setting) (o : OldSys) : Prop where
  stage : ∀ i c rel, o.prog.children[i]? = some c → c.node = t.node rel → t.kind rel = some .reg →
    ChildStage t o.world.main.fs (o.world.procs i) c rel c.pc
  content : AllOrNone t o.world.main.fs

section

variable {t : Setting} {o o' : OldSys} {u : Sys} {d : Places} {l : OldLabel} {i : ℕ} {c c' : Child}
  {rel rel' : Loc}

namespace Shadow

lemma below_eq (h : Shadow t o u d) (rel : Loc) : u.prog.argv.below rel = t.node rel := by
  rw [h.run.argv]
  rfl

/-- Every child is for a regular file of the source. -/
lemma exists_place (h : Shadow t o u d) (hc : c ∈ o.prog.children) :
    ∃ rel ∈ d.met, t.kind rel = some .reg ∧ c.node = t.node rel := by
  obtain ⟨rel, hrel, hreg, hnode⟩ := h.places c hc
  exact ⟨rel, hrel, hreg, hnode.trans (h.below_eq rel)⟩

/-- The files of a child are where its place is. -/
lemma site (h : Shadow t o u d) (hcontent : AllOrNone t o.world.main.fs) (hc : c ∈ o.prog.children)
    (hnode : c.node = t.node rel) (hreg : t.kind rel = some .reg) (i : ℕ) :
    Site t (o.world.ofChild i) c.node rel := by
  obtain ⟨rel', hmet, hreg', hnode'⟩ := h.exists_place hc
  obtain rfl := Setting.below_injective (by rw [hreg]; rfl) (by rw [hreg']; rfl)
    (hnode.symm.trans hnode')
  have hfs : (o.world.ofChild i).fs = u.world.fs := by rw [h.world]; rfl
  have hcwd : (o.world.ofChild i).cwd = u.world.cwd := by rw [h.world]; rfl
  have htree := h.copying.tree
  rw [hnode, ← h.below_eq]
  refine ⟨fun loc hopen => ?_, ?_, fun loc fs' hopen => ?_, fun bytes hb => hcontent rel bytes hb⟩
  · rw [hfs, hcwd] at hopen
    exact h.run.openRead_eq (by rw [hreg]; rfl) hopen
  · rw [hfs, Fs.content, htree.source]
    rfl
  · rw [hfs, hcwd] at hopen
    rw [hfs]
    obtain ⟨rfl, hadds⟩ :=
      Fs.openCreate_adds hopen (htree.dst_at htree.toMirror h.run hmet) (htree.ne_lnk rel)
    refine ⟨rfl, hadds, ?_⟩
    rcases hadds with rfl | hadds
    · have hresolve := (Fs.openCreate_ok hopen).1
      obtain ⟨e, he⟩ := Option.isSome_iff_exists.mp (Fs.isSome_of_resolve hresolve)
      rw [he, Option.map_some, ← htree.copied rel e he, hreg]
    · rw [hadds.self]
      rfl

end Shadow

namespace OldData

lemma init : OldData t t.oldInit where
  stage i c rel hc := by simp [Setting.oldInit, OldSys.init, OldProg.init] at hc
  content rel bytes hb := by simp [Setting.oldInit, OldSys.init, Setting.below_target_new] at hb

/-- A step of the child `i`. -/
theorem child (h : OldData t o) (hs : Shadow t o u d) {act : ChildAct}
    (hok : o.Faultless (.child i act)) (hstep : o.step (.child i act) = some o') :
    ∃ u', Shadow t o' u' d ∧ OldData t o' := by
  obtain ⟨-, hfires, hafter⟩ := OldSys.fires_of_step hstep
  obtain ⟨p', w'⟩ := o'
  dsimp only at hfires hafter
  obtain ⟨c, v, hc, hperm, rfl⟩ := OldWorld.after_child hafter
  cases hfires with
  | fail _ _ hfails => exact hfails.elim
  | child _ _ c₀ c' hc₀ hfires =>
    obtain rfl := Option.some.inj (hc.symm.trans hc₀)
    have hmem := List.mem_of_getElem? hc
    have hone : ∀ rel, c.node = t.node rel → t.kind rel = some .reg →
        ChildStage t v.fs ⟨v.files, v.mem⟩ c' rel c'.pc ∧ ChildEffect t rel o.world.main.fs v.fs :=
      fun rel hnode hreg =>
        ChildStage.step (w := o.world.ofChild i) (h.stage i c rel hc hnode hreg)
          (hs.site h.content hmem hnode hreg i) hok.1 (hok.2 c hc) hfires hperm
    obtain ⟨rel, -, hreg, hnode⟩ := hs.exists_place hmem
    have heffect := (hone rel hnode hreg).2
    refine ⟨_, hs.change heffect.le (heffect.change hreg) rfl rfl rfl
      (Child.map_node_set hc hfires),
      fun j c₁ rel₁ hc₁ hnode₁ hreg₁ => ?_, heffect.allOrNone h.content⟩
    by_cases hj : j = i
    · subst hj
      obtain ⟨hlt, -⟩ := List.getElem?_eq_some_iff.mp hc
      rw [List.getElem?_set_self hlt] at hc₁
      obtain rfl := Option.some.inj hc₁
      rw [Child.node_of_fires hfires] at hnode₁
      simpa only [OldWorld.setChild, if_true] using (hone rel₁ hnode₁ hreg₁).1
    · rw [List.getElem?_set_ne (Ne.symm hj)] at hc₁
      simpa only [OldWorld.setChild, if_neg hj] using
        (h.stage j c₁ rel₁ hc₁ hnode₁ hreg₁).keep heffect.le heffect.written

/-- A step of the parent. -/
theorem parent {t : Task} (h : OldData t.toSetting o) (hs : Shadow t.toSetting o u d)
    (hok : o.Faultless l) (hl : ∀ i act, l ≠ .child i act) (hstep : o.step l = some o') :
    ∃ u', Shadow t.toSetting o' u' (l.calls.foldl Places.after d) ∧ OldData t.toSetting o' := by
  obtain ⟨u', hs'⟩ := hs.parent hok hl hstep
  obtain ⟨-, hfires, hafter⟩ := OldSys.fires_of_step hstep
  obtain ⟨hmain, hprocs⟩ := OldWorld.after_parent hafter hl
  obtain ⟨hle, hsame⟩ := World.grows_of_afterParent hmain
  refine ⟨u', hs', fun i c rel hc hnode hreg => ?_, fun rel bytes hb =>
    (hsame.new _ bytes hb).elim Or.inl (h.content rel bytes)⟩
  rw [hprocs]
  rcases hfires.children hl with hkids | ⟨curr, hkids⟩
  · rw [hkids] at hc
    exact (h.stage i c rel hc hnode hreg).keep hle (hsame.kept _ _)
  · rw [hkids, List.getElem?_append] at hc
    split_ifs at hc with hi
    · exact (h.stage i c rel hc hnode hreg).keep hle (hsame.kept _ _)
    · obtain rfl := List.mem_singleton.mp (List.mem_of_getElem? hc)
      exact .ioSetup rfl

/-- **A run of the old program without faults** shadows one of `cpr.c`. -/
theorem of_reaches {t : Task} (h : Reaches OldSys.step OldSys.Faultless t.oldInit o) :
    ∃ u d, Shadow t.toSetting o u d ∧ OldData t.toSetting o := by
  refine h.invariant (I := fun o => ∃ u d, Shadow t.toSetting o u d ∧ OldData t.toSetting o)
    (fun {o l o'} hinv hok hstep => ?_) ?_
  · obtain ⟨u, d, hs, hdata⟩ := hinv
    by_cases hl : ∃ i act, l = .child i act
    · obtain ⟨i, act, rfl⟩ := hl
      obtain ⟨u', hs', hdata'⟩ := hdata.child hs hok hstep
      exact ⟨u', d, hs', hdata'⟩
    · obtain ⟨u', h'⟩ := hdata.parent hs hok (fun i act heq => hl ⟨i, act, heq⟩) hstep
      exact ⟨u', _, h'⟩
  · obtain ⟨u, hs⟩ := Shadow.init t.toSetting
    exact ⟨u, _, hs, .init⟩

end OldData

end

end Cpr
