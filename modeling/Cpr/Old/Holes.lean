/-
# A child whose calls fail

A child takes every result of a transfer for a success.  Where its read moved nothing it writes
the zeros of its fresh buffer.  But it writes nothing else: a byte of its file is zero or that of
the source, whatever fails and whatever the other processes do.
-/
import Cpr.Old.Data

namespace Cpr

open Transition Unix

/-! ## Files with holes -/

/-- The bytes of a file, some of them replaced by zeros, and the last ones missing. -/
structure Holed (bytes source : List UInt8) : Prop where
  length_le : bytes.length ≤ source.length
  get : ∀ (i : ℕ) b, bytes[i]? = some b → b = 0 ∨ source[i]? = some b

namespace Holed

variable {bytes new source : List UInt8} {n : ℕ}

lemma some_of_isPrefix (h : bytes <+: source) {i : ℕ} {b : UInt8} (hb : bytes[i]? = some b) :
    source[i]? = some b := by
  obtain ⟨hi, rfl⟩ := List.getElem?_eq_some_iff.mp hb
  exact List.prefix_iff_getElem?.mp h i hi

lemma nil : Holed [] source := ⟨Nat.zero_le _, fun i b h => by simp at h⟩

lemma zeros (h : n ≤ source.length) : Holed (List.replicate n 0) source where
  length_le := by simpa using h
  get _ _ hb := Or.inl (List.eq_of_mem_replicate (List.mem_of_getElem? hb))

lemma of_isPrefix (h : bytes <+: source) : Holed bytes source where
  length_le := h.length_le
  get _ _ hb := Or.inr (some_of_isPrefix h hb)

lemma take (h : Holed bytes source) (n : ℕ) : Holed (bytes.take n) source where
  length_le := (List.length_take_le' n bytes).trans h.length_le
  get i b hb := h.get i b (some_of_isPrefix (List.take_prefix n bytes) hb)

lemma mono {source' : List UInt8} (h : Holed bytes source) (hs : source <+: source') :
    Holed bytes source' where
  length_le := h.length_le.trans hs.length_le
  get i b hb := (h.get i b hb).imp_right (some_of_isPrefix hs)

/-- New bytes at the beginning. -/
lemma append_drop (h : Holed bytes source) (hnew : Holed new source) :
    Holed (new ++ bytes.drop new.length) source where
  length_le := by
    have h₁ := h.length_le
    have h₂ := hnew.length_le
    simp only [List.length_append, List.length_drop]
    omega
  get i b hb := by
    rcases lt_or_ge i new.length with hlt | hge
    · rw [List.getElem?_append_left hlt] at hb
      exact hnew.get i b hb
    · rw [List.getElem?_append_right hge, List.getElem?_drop, Nat.add_sub_cancel' hge] at hb
      exact h.get i b hb

lemma overwrite (h : Holed bytes source) (hnew : Holed new source) :
    Holed (World.overwrite bytes 0 new) source := by
  rw [World.overwrite_zero]
  exact h.append_drop hnew

/-- A range of the memory is written at its beginning. -/
lemma store {m : Memory} {addr : ℕ} (h : Holed (m.load addr n) source) (hnew : Holed new source)
    (hlen : new.length ≤ n) : Holed ((m.store addr new).load addr n) source := by
  rw [Memory.load_store hlen]
  exact h.append_drop hnew

end Holed

/-! ## The file system -/

/-- Below the destination the files are those of the source, with holes. -/
structure Setting.Holds (t : Setting) (fs : Fs) : Prop where
  le : t.fs.Le fs
  frame : ∀ l, ¬ t.target <:+ l → fs.entry l = t.fs.entry l
  copied : ∀ rel e, fs.entry (rel ++ t.target) = some e → t.kind rel = some e.kind
  content : ∀ rel bytes, fs.entry (rel ++ t.target) = some (.reg bytes) →
    Holed bytes (t.transferred rel)

/-- A place of the source, whose parent directory was made. -/
structure Setting.Placed (t : Setting) (fs : Fs) (rel : Loc) : Prop where
  real : (t.kind rel).isSome
  parent : ∀ n r, rel = n :: r → fs.entry (r ++ t.target) = some .dir

/-- What a process may do to the file system. -/
inductive Setting.Impact (t : Setting) (fs : Fs) : Fs → Prop
  | none : t.Impact fs fs
  | added (rel : Loc) (e : Entry) (fs' : Fs) (adds : fs.Adds fs' (rel ++ t.target) e)
      (kind : t.kind rel = some e.kind) (blank : e = .dir ∨ e = .reg []) : t.Impact fs fs'
  | wrote (rel : Loc) (bytes : List UInt8) (holed : Holed bytes (t.transferred rel)) :
      t.Impact fs (fs.setContent (rel ++ t.target) bytes)

namespace Setting

variable {t : Setting} {fs fs' : Fs} {rel : Loc}

namespace Impact

lemma le (h : t.Impact fs fs') : fs.Le fs' := by
  cases h with
  | none => exact Fs.Le.refl fs
  | added _ _ _ adds => exact adds.le
  | wrote => exact Fs.Le.setContent

lemma change (h : t.Impact fs fs') : t.Change fs fs' := by
  cases h with
  | none => exact .refl fs
  | added _ _ _ adds kind => exact .of_adds adds kind
  | wrote => exact .setContent

end Impact

lemma Placed.mono (h : t.Placed fs rel) (hle : fs.Le fs') : t.Placed fs' rel :=
  ⟨h.real, fun n r heq => hle.entry_dir (h.parent n r heq)⟩

namespace Holds

lemma init (t : Setting) : t.Holds t.fs where
  le := Fs.Le.refl _
  frame _ _ := rfl
  copied rel e he := by simp [below_target_new] at he
  content rel bytes hb := by simp [below_target_new] at hb

/-- Every effect of a process keeps it so. -/
theorem impact (h : t.Holds fs) (he : t.Impact fs fs') : t.Holds fs' where
  le := h.le.trans he.le
  frame l hl := (he.change.frame l hl).trans (h.frame l hl)
  copied rel e hentry := by
    rcases he.change.copied rel e hentry with hkind | hold
    · exact hkind
    · obtain ⟨e₀, he₀, heq⟩ := Option.map_eq_some_iff.mp hold
      rw [h.copied rel e₀ he₀, heq]
  content rel bytes hb := by
    cases he with
    | none => exact h.content rel bytes hb
    | added rel' e _ adds _ blank =>
      by_cases heq : rel ++ t.target = rel' ++ t.target
      · rw [heq, adds.self] at hb
        obtain rfl := Option.some.inj hb
        obtain rfl : bytes = [] := by simpa using blank
        exact .nil
      · rw [adds.other _ heq] at hb
        exact h.content rel bytes hb
    | wrote rel' new holed =>
      by_cases heq : rel = rel'
      · subst heq
        rwa [Fs.eq_of_entry_setContent hb]
      · rw [Fs.entry_setContent_of_ne fun h => heq (List.append_cancel_right h)] at hb
        exact h.content rel bytes hb

lemma source (h : t.Holds fs) : fs.content (rel ++ t.root) = t.content rel := by
  rw [Fs.content, h.frame _ not_target_suffix]
  rfl

/-- The content of a file of the destination, which may be missing. -/
lemma holed (h : t.Holds fs) (rel : Loc) :
    Holed (fs.content (rel ++ t.target)) (t.transferred rel) := by
  rw [Fs.content]
  split
  · rename_i bytes hb
    exact h.content rel bytes hb
  · exact .nil

lemma ne_lnk (h : t.Holds fs) (rel : Loc) (p : Path) :
    fs.entry (rel ++ t.target) ≠ some (.lnk p) := fun he => kind_ne_lnk (h.copied rel _ he)

/-- The source path of a place leads to its file. -/
lemma src_resolve (h : t.Holds fs) (hrel : t.Placed fs rel) :
    fs.resolve true t.cwd (t.node rel).srcName = .here (rel ++ t.root) := by
  obtain ⟨e, he⟩ := Option.isSome_iff_exists.mp (by simpa [kind] using hrel.real)
  exact Fs.resolve_mono (Fs.resolve_extend t.src he (Setting.ne_lnk he)) h.le

/-- The destination path of a place leads to it. -/
lemma dst_at (h : t.Holds fs) (hrel : t.Placed fs rel) :
    (fs.resolveLast t.cwd (t.node rel).dstName).At (rel ++ t.target) := by
  cases rel with
  | nil => exact Fs.resolveLast_at_of_missing t.dst h.le (h.ne_lnk [])
  | cons n rel =>
    have hdir := hrel.parent n rel rfl
    have htop : fs.entry t.target = some .dir := by
      cases rel with
      | nil => exact hdir
      | cons m rel => exact Fs.entry_of_append (by rw [hdir]; rfl) (List.cons_ne_nil m rel)
    have hat := Fs.DirAt.extend (Fs.DirAt.of_missing t.dst h.le htop).1 hdir
    exact hat.resolveLast_join_at (legal_of_kind hrel.real n List.mem_cons_self)
      (h.ne_lnk (n :: rel))

lemma openRead_eq (h : t.Holds fs) (hrel : t.Placed fs rel) {loc : Loc}
    (hopen : fs.openRead t.cwd (t.node rel).srcName = some loc) : loc = rel ++ t.root := by
  obtain ⟨hloc, -⟩ := Option.filter_eq_some_iff.mp hopen
  rw [Fs.fileAt_eq_some, h.src_resolve hrel] at hloc
  exact (Found.here.inj hloc).symm

lemma stat_eq (h : t.Holds fs) (hrel : t.Placed fs rel) :
    fs.stat t.cwd (t.node rel).srcName = t.kind rel := by
  obtain ⟨k, hk⟩ := Option.isSome_iff_exists.mp hrel.real
  rw [Fs.stat_of_resolve (h.src_resolve hrel), h.le.kind hk, hk]

end Holds

end Setting

/-! ## The children -/

/-- The source was opened, and the buffer is there. -/
def ChildPc.mapped : ChildPc → Bool
  | .ioSetup | .openSrc | .exited => false
  | _ => true

/-- The destination was opened. -/
def ChildPc.opened : ChildPc → Bool
  | .writeSubmit | .writeSpin | .ioDestroy => true
  | _ => false

/-- What is known about a child for the place `rel`, whatever has failed. -/
structure Carrying (t : Setting) (proc : Proc) (c : Child) (rel : Loc) : Prop where
  idle : c.pc.mapped = false → c.flight = []
  blank : c.pc.mapped = false → proc.mem = fun _ => 0
  files : ∀ fd loc, proc.files fd = some loc → loc = rel ++ t.root ∨ loc = rel ++ t.target
  dst : c.pc.opened = true → proc.files c.dstFd = some (rel ++ t.target)
  ops : ∀ op ∈ c.flight, op.obj = c.readReq ∨ (op.obj = c.writeReq ∧ c.pc.opened = true)
  size : c.pc.mapped = true → c.buffer ≠ mapFailed →
    toUlong c.fsize = (t.transferred rel).length
  /-- The buffer has bytes of the source, or zeros. -/
  holed : c.pc.mapped = true → c.buffer ≠ mapFailed →
    Holed (proc.mem.load c.buffer (t.transferred rel).length) (t.transferred rel)

/-- The kernel moves no bytes from or to `MAP_FAILED`. -/
def ChildAct.Guarded : ChildAct → Prop
  | .complete op res => op.buf = mapFailed → World.moved op res = 0
  | _ => True

instance ChildAct.decidableGuarded (act : ChildAct) : Decidable act.Guarded := by
  induction act using ChildAct.casesOn <;> (unfold ChildAct.Guarded; infer_instance)

namespace Carrying

variable {t : Setting} {c c' : Child} {rel : Loc} {w w' : World} {act : ChildAct}

lemma new {proc : Proc} (node : Node) (hfiles : proc.files = fun _ => none)
    (hmem : proc.mem = fun _ => 0) : Carrying t proc (.new node) rel where
  idle _ := rfl
  blank _ := hmem
  files fd loc h := by simp [hfiles] at h
  dst h := by cases h
  ops op h := absurd h List.not_mem_nil
  size h := by cases h
  holed h := by cases h

/-- Reaping takes operations away. -/
lemma mem_of_mem_left {e : IoEvent} {returned : Bool} {op : Op} (h : op ∈ c.left e returned) :
    op ∈ c.flight := by
  rw [Child.left] at h
  split_ifs at h
  · exact List.mem_of_mem_erase h
  · exact h

/-- A range of zeros. -/
lemma load_blank {addr n : ℕ} {m : Memory} (h : m = fun _ => 0) :
    m.load addr n = List.replicate n 0 := by
  subst h
  simp [Memory.load, List.map_const']

/-- The source is opened. -/
lemma step_openSrc (h : Carrying t ⟨w.files, w.mem⟩ c rel) (hw : t.Holds w.fs)
    (hrel : t.Placed w.fs rel) (hcwd : w.cwd = t.cwd) (hnode : c.node = t.node rel)
    {o : AioState.ReadAnswer} (hpc : c.pc = .openSrc) (hposs : c.Possible o)
    (hperm : World.PermitsChild w c (.openSrc o) w') :
    ((c.openSrc o).pc ≠ .exited → Carrying t ⟨w'.files, w'.mem⟩ (c.openSrc o) rel) ∧
      w'.fs = w.fs := by
  have hidle := h.idle (by rw [hpc]; rfl)
  have hblank := h.blank (by rw [hpc]; rfl)
  cases hperm with
  | noSrc _ hfd =>
    refine ⟨fun hpc' => absurd ?_ hpc', rfl⟩
    rw [Child.openSrc, if_pos hfd]
    rfl
  | other _ hsrc => exact absurd rfl (hsrc o)
  | openSrc _ loc hfd hopen hlen =>
    rw [hcwd, hnode] at hopen
    obtain rfl := hw.openRead_eq hrel hopen
    refine ⟨fun hpc' => ?_, rfl⟩
    rw [Child.openSrc, if_neg (not_lt.mpr hfd)] at hpc' ⊢
    cases hn : o.stSize with
    | none => simp [hn, Child.exit] at hpc'
    | some n =>
      simp only [hn] at hpc' ⊢
      by_cases hbuf : o.buf = 0
      · rw [if_pos hbuf] at hpc'
        exact absurd rfl hpc'
      rw [if_neg hbuf]
      have hlen := hlen n hn
      rw [hw.source] at hlen
      have hsize : o.buf ≠ mapFailed → toUlong (toInt32 n) = (t.transferred rel).length := by
        intro hmap
        have hnonneg := toInt32_nonneg_of_mmap (hposs.2 n hn).2 hmap
        rw [hlen] at hnonneg ⊢
        rw [← Setting.length_transferred hnonneg, toUlong_nat (t.length_transferred_lt rel)]
      refine ⟨by simp [ChildPc.mapped], by simp [ChildPc.mapped], fun fd loc hloc => ?_,
        by simp [ChildPc.opened], fun op hop => ?_, fun _ => hsize, fun _ _ => ?_⟩
      · by_cases hfd' : fd = o.fd
        · subst hfd'
          exact Or.inl (Option.some.inj ((if_pos rfl).symm.trans hloc)).symm
        · exact h.files fd loc ((if_neg hfd').symm.trans hloc)
      · simp only [hidle] at hop
        exact absurd hop List.not_mem_nil
      · rw [show (w.openFile o.fd (rel ++ t.root)).mem = w.mem from rfl, load_blank hblank]
        exact .zeros le_rfl

/-- The destination is opened. -/
lemma step_openDst (h : Carrying t ⟨w.files, w.mem⟩ c rel) (hw : t.Holds w.fs)
    (hrel : t.Placed w.fs rel) (hreg : t.kind rel = some .reg) (hcwd : w.cwd = t.cwd)
    (hnode : c.node = t.node rel) {fd : ℤ} (hpc : c.pc = .openDst)
    (hperm : World.PermitsChild w c (.openDst fd) w') :
    ((c.openDst fd).pc ≠ .exited → Carrying t ⟨w'.files, w'.mem⟩ (c.openDst fd) rel) ∧
      t.Impact w.fs w'.fs := by
  cases hperm with
  | noDst _ hfd =>
    refine ⟨fun hpc' => absurd ?_ hpc', .none⟩
    rw [Child.openDst, if_pos hfd]
    rfl
  | other _ _ hdst => exact absurd rfl (hdst fd)
  | openDst _ loc fs' hfd hopen =>
    rw [hcwd, hnode] at hopen
    obtain ⟨rfl, hadds⟩ := Fs.openCreate_adds hopen (hw.dst_at hrel) (hw.ne_lnk rel)
    refine ⟨fun _ => ?_, ?_⟩
    · rw [Child.openDst, if_neg (not_lt.mpr hfd)]
      refine ⟨by simp [ChildPc.mapped], by simp [ChildPc.mapped], fun fd' loc hloc => ?_,
        fun _ => if_pos rfl, fun op hop => ?_, fun _ => h.size (by rw [hpc]; rfl),
        fun _ => h.holed (by rw [hpc]; rfl)⟩
      · by_cases hfd' : fd' = fd
        · subst hfd'
          exact Or.inr (Option.some.inj ((if_pos rfl).symm.trans hloc)).symm
        · exact h.files fd' loc ((if_neg hfd').symm.trans hloc)
      · rcases h.ops op hop with hread | ⟨-, hopened⟩
        · exact Or.inl hread
        · rw [hpc] at hopened
          cases hopened
    · rcases hadds with rfl | hadds
      · exact .none
      · exact .added rel (.reg []) fs' hadds hreg (Or.inr rfl)

/-- No more is moved than the buffer has. -/
lemma moved_le (h : Carrying t ⟨w.files, w.mem⟩ c rel) (hm : c.pc.mapped = true)
    (hbuf : c.buffer ≠ mapFailed) {op : Iocb} (hnbytes : op.nbytes = toUlong c.fsize) (res : ℕ) :
    World.moved op res ≤ (t.transferred rel).length := by
  rw [← h.size hm hbuf, ← hnbytes]
  exact World.moved_le op res

/-- A child that awaits an operation has its buffer. -/
lemma mapped_of_mem (h : Carrying t ⟨w.files, w.mem⟩ c rel) {op : Op} (hmem : op ∈ c.flight) :
    c.pc.mapped = true := by
  by_contra hm
  rw [h.idle (by simpa using hm)] at hmem
  exact absurd hmem List.not_mem_nil

/-- What a read may store: a part of the source, or of the destination. -/
lemma holed_read (h : Carrying t ⟨w.files, w.mem⟩ c rel) (hw : t.Holds w.fs) {fd : ℤ} {loc : Loc}
    (hfile : w.files fd = some loc) {n : ℕ} (hn : n ≤ (t.transferred rel).length) :
    Holed ((w.fs.content loc).take n) (t.transferred rel) := by
  rcases h.files fd loc hfile with rfl | rfl
  · rw [hw.source, ← Nat.min_eq_left hn, ← List.take_take, t.take_content]
    exact .of_isPrefix (List.take_prefix _ _)
  · exact (hw.holed rel).take n

/-- The operation of a child in flight ends. -/
lemma step_complete (h : Carrying t ⟨w.files, w.mem⟩ c rel) (hw : t.Holds w.fs) {op : Iocb}
    {res : ℕ} (hmem : .pending op ∈ c.flight)
    (hok : op.buf = mapFailed → World.moved op res = 0) :
    Carrying t ⟨(w.transfer op res).files, (w.transfer op res).mem⟩ (c.complete op res) rel ∧
      t.Impact w.fs (w.transfer op res).fs := by
  have hm := h.mapped_of_mem hmem
  have hops : ∀ op' ∈ (c.complete op res).flight,
      op'.obj = c.readReq ∨ (op'.obj = c.writeReq ∧ c.pc.opened = true) := by
    intro op' hop'
    rcases List.mem_cons.mp hop' with rfl | hop'
    · exact h.ops (.pending op) hmem
    · exact h.ops op' (List.mem_of_mem_erase hop')
  -- only the bytes of the buffer can change
  have hkeep : ∀ m : Memory, (c.buffer ≠ mapFailed →
      Holed (m.load c.buffer (t.transferred rel).length) (t.transferred rel)) →
      Carrying t ⟨w.files, m⟩ (c.complete op res) rel := fun m hm' =>
    ⟨fun hfalse => absurd (hm.symm.trans hfalse) (by simp),
      fun hfalse => absurd (hm.symm.trans hfalse) (by simp), h.files, h.dst, hops, h.size,
      fun _ => hm'⟩
  rcases h.ops _ hmem with hread | ⟨hwrite, hopened⟩
  · obtain rfl : op = c.readReq := hread
    cases hfile : w.files c.readReq.fd with
    | none =>
      have hsame : w.transfer c.readReq res = w := by simp [World.transfer, hfile]
      rw [hsame]
      exact ⟨hkeep w.mem (h.holed hm), .none⟩
    | some loc =>
      have hstore : w.transfer c.readReq res = { w with
          mem := w.mem.store c.buffer
            ((w.fs.content loc).take (World.moved c.readReq res)) } := by
        simp only [World.transfer, hfile]
        rfl
      rw [hstore]
      refine ⟨hkeep _ fun hbuf => ?_, .none⟩
      have hle : World.moved c.readReq res ≤ (t.transferred rel).length :=
        h.moved_le hm hbuf rfl res
      refine (h.holed hm hbuf).store (h.holed_read hw hfile hle) ?_
      exact (List.length_take_le _ _).trans hle
  · obtain rfl : op = c.writeReq := hwrite
    have hfile : w.files c.writeReq.fd = some (rel ++ t.target) := h.dst hopened
    have hwrote : w.transfer c.writeReq res = { w with
        fs := w.fs.setContent (rel ++ t.target)
          (World.overwrite (w.fs.content (rel ++ t.target)) 0
            (w.mem.load c.buffer (World.moved c.writeReq res))) } := by
      simp only [World.transfer, hfile]
      rfl
    have hload : Holed (w.mem.load c.buffer (World.moved c.writeReq res))
        (t.transferred rel) := by
      by_cases hbuf : c.buffer = mapFailed
      · rw [hok hbuf, Memory.load_zero]
        exact .nil
      · rw [Memory.load_eq_take (h.moved_le hm hbuf rfl res)]
        exact (h.holed hm hbuf).take _
    rw [hwrote]
    exact ⟨hkeep w.mem (h.holed hm), .wrote rel _ ((hw.holed rel).overwrite hload)⟩

/-- The steps that the environment has no part in. -/
lemma keep (h : Carrying t ⟨w.files, w.mem⟩ c rel) (hfd : c'.dstFd = c.dstFd)
    (hreq : c'.readReq = c.readReq) (hsize : c'.fsize = c.fsize) (hbuf : c'.buffer = c.buffer)
    (hm : c'.pc.mapped = c.pc.mapped) (hopened : c'.pc.opened = c.pc.opened)
    (hflight : ∀ op ∈ c'.flight, op ∈ c.flight ∨ (c.pc.mapped = true ∧
      (op.obj = c.readReq ∨ (op.obj = c.writeReq ∧ c.pc.opened = true)))) :
    Carrying t ⟨w.files, w.mem⟩ c' rel := by
  have hwrite : c'.writeReq = c.writeReq := by
    rw [Child.writeReq, Child.writeReq, hfd, hbuf, hsize]
  refine ⟨fun hfalse => ?_, fun hfalse => h.blank (hm ▸ hfalse), h.files, ?_, fun op hop => ?_, ?_,
    ?_⟩
  · refine List.eq_nil_iff_forall_not_mem.mpr fun op hop => ?_
    rw [hm] at hfalse
    rcases hflight op hop with hold | ⟨htrue, -⟩
    · rw [h.idle hfalse] at hold
      exact absurd hold List.not_mem_nil
    · exact absurd (htrue.symm.trans hfalse) (by simp)
  · rw [hopened, hfd]
    exact h.dst
  · rw [hreq, hwrite, hopened]
    rcases hflight op hop with hold | ⟨-, hnew⟩
    · exact h.ops op hold
    · exact hnew
  · rw [hm, hbuf, hsize]
    exact h.size
  · rw [hm, hbuf]
    exact h.holed

/-- One request is submitted, or the child gives up. -/
lemma step_submit (h : Carrying t ⟨w.files, w.mem⟩ c rel) {ret : ℤ} {req : Iocb} {next : ChildPc}
    (hm : c.pc.mapped = true) (hm' : next.mapped = true) (hopened : next.opened = c.pc.opened)
    (hreq : req = c.readReq ∨ (req = c.writeReq ∧ c.pc.opened = true))
    (hpc : (c.submit ret req next).pc ≠ .exited) :
    Carrying t ⟨w.files, w.mem⟩ (c.submit ret req next) rel := by
  rw [Child.submit] at hpc ⊢
  by_cases hret : ret ≠ 1
  · rw [if_pos hret] at hpc
    exact absurd rfl hpc
  rw [if_neg hret]
  refine h.keep rfl rfl rfl rfl (hm'.trans hm.symm) hopened fun op hop => ?_
  rcases List.mem_cons.mp hop with rfl | hop
  · exact Or.inr ⟨hm, hreq⟩
  · exact Or.inl hop

/-- **One step of a child**, whatever it answers. -/
theorem step (h : Carrying t ⟨w.files, w.mem⟩ c rel) (hw : t.Holds w.fs)
    (hrel : t.Placed w.fs rel) (hreg : t.kind rel = some .reg) (hcwd : w.cwd = t.cwd)
    (hnode : c.node = t.node rel) (hok : act.Guarded) (hfires : c.Fires act c')
    (hperm : World.PermitsChild w c act w') :
    (c'.pc ≠ .exited → Carrying t ⟨w'.files, w'.mem⟩ c' rel) ∧ t.Impact w.fs w'.fs := by
  have hsame : (∀ o, act ≠ .openSrc o) → (∀ fd, act ≠ .openDst fd) →
      (∀ op n, act ≠ .complete op n) → w' = w := by
    intro hsrc hdst hcomplete
    cases hperm with
    | openSrc o => exact absurd rfl (hsrc o)
    | openDst fd => exact absurd rfl (hdst fd)
    | complete op n => exact absurd rfl (hcomplete op n)
    | _ => rfl
  cases hfires with
  | openSrc o hpc hposs =>
    obtain ⟨hnext, hfs⟩ := h.step_openSrc hw hrel hcwd hnode hpc hposs hperm
    exact ⟨hnext, hfs ▸ .none⟩
  | openDst fd hpc => exact h.step_openDst hw hrel hreg hcwd hnode hpc hperm
  | complete op res hpc hmem =>
    cases hperm with
    | complete =>
      obtain ⟨hnext, hfs⟩ := h.step_complete hw hmem hok
      exact ⟨fun _ => hnext, hfs⟩
    | other _ _ _ hcomplete => exact absurd rfl (hcomplete _ _)
  | ioSetup hpc =>
    rw [hsame (by simp) (by simp) (by simp)]
    exact ⟨fun _ => h.keep rfl rfl rfl rfl (by rw [hpc]; rfl) (by rw [hpc]; rfl)
      fun op hop => Or.inl hop, .none⟩
  | ioSetupFail | ioDestroy =>
    rw [hsame (by simp) (by simp) (by simp)]
    exact ⟨fun hpc' => absurd rfl hpc', .none⟩
  | readSubmit ret hpc =>
    rw [hsame (by simp) (by simp) (by simp)]
    exact ⟨h.step_submit (by rw [hpc]; rfl) rfl (by rw [hpc]; rfl) (Or.inl rfl), .none⟩
  | writeSubmit ret hpc =>
    rw [hsame (by simp) (by simp) (by simp)]
    exact ⟨h.step_submit (by rw [hpc]; rfl) rfl (by rw [hpc]; rfl)
      (Or.inr ⟨rfl, by rw [hpc]; rfl⟩), .none⟩
  | readReap e returned hpc =>
    rw [hsame (by simp) (by simp) (by simp), Child.readReap_eq]
    exact ⟨fun _ => h.keep rfl rfl rfl rfl (by rw [hpc]; rfl) (by rw [hpc]; rfl)
      fun op hop => Or.inl (mem_of_mem_left hop), .none⟩
  | writeReap e returned hpc =>
    rw [hsame (by simp) (by simp) (by simp), Child.writeReap_eq]
    exact ⟨fun _ => h.keep rfl rfl rfl rfl (by rw [hpc]; rfl) (by rw [hpc]; rfl)
      fun op hop => Or.inl (mem_of_mem_left hop), .none⟩

end Carrying

end Cpr
