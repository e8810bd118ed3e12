/-
# The bytes

When no system call of `aio_loop` fails and every transfer moves all its bytes, the buffer of
a request holds the bytes of its source from the completion of its read on, and its
destination has them from the completion of its write on.  A size goes through an `int`:
these are all bytes of the source if there are fewer than `2 ^ 31`.
-/
import Cpr.Program.Success
import Cpr.System.Tree

namespace Cpr

open Transition Unix

/-- The content of a file of the source. -/
def Setting.content (t : Setting) (rel : Loc) : List UInt8 := t.fs.content (rel ++ t.root)

/-- The part of a file of the source that is transferred. -/
def Setting.transferred (t : Setting) (rel : Loc) : List UInt8 :=
  (t.content rel).take (toInt32 (t.content rel).length).toNat

lemma Setting.transferred_of_lt {t : Setting} {rel : Loc} (h : (t.content rel).length < 2 ^ 31) :
    t.transferred rel = t.content rel := by
  rw [transferred, toInt32_nat h, Int.toNat_natCast, List.take_length]

lemma Setting.length_transferred {t : Setting} {rel : Loc}
    (h : 0 ≤ toInt32 (t.content rel).length) :
    (t.transferred rel).length = toInt32 (t.content rel).length := by
  have hle := toInt32_le_of_nat (t.content rel).length
  rw [transferred, List.length_take]
  omega

lemma Setting.length_transferred_lt (t : Setting) (rel : Loc) :
    (t.transferred rel).length < 2 ^ 31 := by
  have hlt := (toInt32_range (t.content rel).length).2
  rw [transferred, List.length_take]
  omega

lemma Setting.take_content (t : Setting) (rel : Loc) :
    (t.content rel).take (t.transferred rel).length = t.transferred rel := by
  rw [transferred, List.length_take, ← List.take_eq_take_min]

/-- A mapping is only made for a size that is positive as an `int`. -/
lemma toInt32_nonneg_of_mmap {maps : List (ℕ × ℕ)} {n buf : ℕ}
    (h : MmapAnswer maps (toUlong (toInt32 n)) buf) (hbuf : buf ≠ mapFailed) : 0 ≤ toInt32 n := by
  obtain ⟨-, -, -, hlimit, -⟩ := h.resolve_left hbuf
  have hrange := toInt32_range n
  simp only [toUlong, addressLimit] at hlimit
  omega

lemma flatTask_content {n : ℕ} (rel : Loc) : ((flatTask n).content rel).length < 2 ^ 31 := by
  unfold Setting.content Fs.content
  cases he : (flatTask n).fs.entry (rel ++ (flatTask n).root) with
  | none => simp
  | some e => rcases flatEntry_eq_some he with rfl | rfl <;> simp

/-- How far the transfer of a request for a place got. -/
structure Progress (t : Setting) (s : Sys) (r : ReqId) (q : CopyRequest) (rel : Loc) : Prop where
  reg : t.kind rel = some .reg
  names : q.For (s.prog.argv.below rel)
  fsize : q.fsize = (t.transferred rel).length
  buffer : t.transferred rel = [] ∨ q.buffer ≠ mapFailed
  loaded : s.prog.aio.Awaits .pread r ∨
    s.world.mem.load q.buffer (t.transferred rel).length = t.transferred rel
  written : q.state = 2 → s.prog.aio.Awaits .pwrite r ∨
    s.world.fs.entry (rel ++ t.target) = some (.reg (t.transferred rel))

/-- What the requests, the memory and the files below the destination contain. -/
structure Data (t : Setting) (s : Sys) : Prop where
  requests : ∀ r q, s.prog.aio.reqs.last? r = some q → q.state ≠ 0 → ∃ rel, Progress t s r q rel
  results : Results s.prog.aio
  content : ∀ rel bytes, s.world.fs.entry (rel ++ t.target) = some (.reg bytes) →
    bytes = [] ∨ bytes = t.transferred rel

namespace World

variable {w w' : World} {p : Prog} {l : Label}

/-- Only the completion of an operation moves bytes. -/
lemma Permits.same_bytes (h : Permits w p l w') (hl : ∀ c n, l ≠ .aio (.complete c n)) :
    w'.mem = w.mem ∧ w.fs.SameContents w'.fs := by
  cases h with
  | mkdir _ _ _ _ hmkdir =>
    obtain ⟨_, _, _, _, _, rfl, -⟩ := Fs.mkdir_ok hmkdir
    refine ⟨rfl, ?_⟩
    dsimp only
    exact .create (by simp)
  | openDst _ _ _ _ _ _ hopen =>
    obtain ⟨-, ⟨rfl, -⟩ | ⟨_, _, _, _, _, -, rfl⟩⟩ := Fs.openCreate_ok hopen
    · exact ⟨rfl, .refl _⟩
    · refine ⟨rfl, ?_⟩
      dsimp only
      exact .create fun c hc => (Entry.reg.inj hc).symm
  | complete c n => exact absurd rfl (hl c n)
  | _ => exact ⟨rfl, .refl _⟩

@[simp] lemma overwrite_nil (bytes : List UInt8) : overwrite [] 0 bytes = bytes := by
  simp [overwrite]

@[simp] lemma overwrite_self (bytes : List UInt8) : overwrite bytes 0 bytes = bytes := by
  simp [overwrite]

/-- Bytes at the beginning of a file. -/
lemma overwrite_zero (old new : List UInt8) :
    overwrite old 0 new = new ++ old.drop new.length := by
  simp [overwrite]

@[simp] lemma moved_nbytes (c : Iocb) : moved c c.nbytes = c.nbytes := if_pos le_rfl

lemma moved_le (c : Iocb) (res : ℕ) : moved c res ≤ c.nbytes := by
  rw [moved]
  split_ifs with hle
  · exact hle
  · exact Nat.zero_le _

/-- A complete read of a file stores its first bytes. -/
lemma transfer_pread {c : Iocb} {loc : Loc} (hfile : w.files c.fd = some loc)
    (hop : c.opcode = .pread) (hoffset : c.offset = 0) :
    w.transfer c c.nbytes =
      { w with mem := w.mem.store c.buf ((w.fs.content loc).take c.nbytes) } := by
  simp only [transfer, hfile, hop, hoffset, moved_nbytes, List.drop_zero]

/-- A complete write to a file that is empty, or has these bytes already. -/
lemma transfer_pwrite {c : Iocb} {loc : Loc} {bytes : List UInt8}
    (hfile : w.files c.fd = some loc) (hop : c.opcode = .pwrite) (hoffset : c.offset = 0)
    (hload : w.mem.load c.buf c.nbytes = bytes)
    (hold : w.fs.content loc = [] ∨ w.fs.content loc = bytes) :
    w.transfer c c.nbytes = { w with fs := w.fs.setContent loc bytes } := by
  simp only [transfer, hfile, hop, hoffset, moved_nbytes, hload]
  rcases hold with h | h <;> simp [h]

end World

section

variable {t : Setting} {s s' : Sys} {d : Places} {l : Label} {rel rel' : Loc} {r : ReqId}
  {q q' : CopyRequest}

lemma CopyRequest.For.unique (h : q.For (s.prog.argv.below rel))
    (h' : q.For (s.prog.argv.below rel')) (hreg : t.kind rel = some .reg)
    (hreg' : t.kind rel' = some .reg) : rel = rel' :=
  Setting.below_injective (by rw [hreg]; rfl) (by rw [hreg']; rfl) (h.node_eq h')

/-- A step that moves no bytes. -/
lemma Progress.keep (h : Progress t s r q rel) (hargv : s'.prog.argv = s.prog.argv)
    (names : SameNames q q') (transfer : SameTransfer q q')
    (hst : q'.state = 2 → q.state = 2 ∨ s'.prog.aio.Awaits .pwrite r)
    (hawaits : ∀ o, s.prog.aio.Awaits o r → s'.prog.aio.Awaits o r)
    (hmem : s'.world.mem.load q.buffer (t.transferred rel).length =
      s.world.mem.load q.buffer (t.transferred rel).length)
    (hfs : s.world.fs.entry (rel ++ t.target) = some (.reg (t.transferred rel)) →
      s'.world.fs.entry (rel ++ t.target) = some (.reg (t.transferred rel))) :
    Progress t s' r q' rel where
  reg := h.reg
  names := hargv ▸ names.for h.names
  fsize := transfer.fsize.trans h.fsize
  buffer := by rw [transfer.buffer]; exact h.buffer
  loaded := by
    rw [transfer.buffer, hmem]
    exact h.loaded.imp_left (hawaits .pread)
  written hst' := by
    rcases hst hst' with hst | hnew
    · exact (h.written hst).imp (hawaits .pwrite) hfs
    · exact Or.inl hnew

/-- A request's place is the one that its transfer is for. -/
lemma Progress.isFor (h : Progress t s r q rel) (hfor : IsFor t s d r rel')
    (hq : s.prog.aio.reqs.last? r = some q) : rel = rel' := by
  obtain ⟨q', hq', hnames⟩ := hfor.request
  obtain rfl := Option.some.inj (hq.symm.trans hq')
  exact h.names.unique hnames h.reg hfor.reg

namespace Data

lemma init (batchSize : ℤ) : Data t (t.init batchSize) where
  requests r q hq := by
    have hnone : (t.init batchSize).prog.aio.reqs.last? r = none :=
      Heap.last?_eq_none_of_le (Nat.zero_le r)
    simp [hnone] at hq
  results := .init _ _
  content rel bytes h := by simp [Setting.init, Sys.init, Setting.below_target_new] at h

/-! ### The end of the process -/

/-- How a step ends, when `aio_loop` meets no fault: the process goes on, or ends in the main
thread. -/
lemma ended_cases (h : Data t s) (hr : t.Run s) (hok : s.AioFaultless l)
    (hstep : s.step l = some s') : s'.prog.aio.ended = none ∨
      (l = .destroy true ∧ s'.prog.aio = s.prog.aio.exit 0 ∧ s'.world = s.world ∧
        s'.prog.argv = s.prog.argv) ∨
      (l.Fails ∧ s'.prog = s.prog.fail) ∨
      ((∃ name dtype, l = .readdir (.entry name dtype) ∧ s.prog.pc = .readdir ∧
        ¬ (name = dot ∨ name = dotdot) ∧ ¬ (dtype = .dir ∨ dtype = .reg ∨ dtype = .unknown)) ∧
        s'.prog.aio.ended = some (.exited 1)) := by
  obtain ⟨hended, hfires, hperm⟩ := Sys.fires_of_step hstep
  obtain ⟨p', w'⟩ := s'
  dsimp only at hfires hperm ⊢
  cases hfires with
  | fail _ _ hfails => exact Or.inr (Or.inr (Or.inl ⟨hfails, rfl⟩))
  | readdirExit name dtype hpc hname htype =>
    exact Or.inr (Or.inr (Or.inr ⟨⟨name, dtype, rfl, hpc, hname, htype⟩, rfl⟩))
  | aio act a ha =>
    obtain ⟨hact, hclient⟩ := Prog.step_of_aioStep hended ha
    refine Or.inl (hr.ready.good.ended_of_faultless h.results hok hact fun code heq => ?_)
    simp [heq, Act.ofClient] at hclient
  | addLink r hpc hr' =>
    obtain ⟨q, -, hlink⟩ := hr.ready.good.addCopyReq_eq hr'
    rw [hlink]
    exact Or.inl hended
  | destroy =>
    cases hperm
    exact Or.inr (Or.inl ⟨rfl, rfl, rfl, rfl⟩)
  | _ => exact Or.inl hended

lemma not_fails_of_faultless (hok : s.Faultless l) : ¬ l.Fails := by
  cases l with
  | aio act => exact id
  | _ => exact hok

/-- Without any faults the process does not fail. -/
lemma ended_of_faultless (h : Data t s) (hcopy : Copying t s d) (hr : t.Run s)
    (hkinds : ∀ rel e, t.fs.entry (rel ++ t.root) = some e → e.kind = .dir ∨ e.kind = .reg)
    (hok : s.Faultless l) (hstep : s.step l = some s') :
    s'.prog.aio.ended = none ∨ s'.prog.aio.ended = some (.exited 0) := by
  have hperm := (Sys.fires_of_step hstep).2.2
  rcases h.ended_cases hr hok.aio hstep with
    hended | ⟨-, haio, -⟩ | ⟨hfails, -⟩ | ⟨⟨name, dtype, rfl, hpc, hname, htype⟩, -⟩
  · exact Or.inl hended
  · exact Or.inr (by rw [haio]; rfl)
  · exact absurd hfails (not_fails_of_faultless hok)
  · -- the entries of the source are directories and regular files
    obtain ⟨rel, todo, hd⟩ := hcopy.walk.exists_head_of_inBody hr.ready (by rw [hpc]; rfl)
    rw [hd] at hcopy
    generalize s'.world = w' at hperm
    cases hperm with
    | entry _ _ hlists =>
      refine absurd ?_ htype
      obtain ⟨e, he, hdtype⟩ :=
        hcopy.tree.source_of_lists hcopy.tree.toConfined hcopy.walk hr hpc hlists hname
      rcases hkinds _ e he with hdir | hreg
      · rw [hdir] at hdtype
        exact hdtype.elim (fun h => Or.inr (Or.inr h)) Or.inl
      · rw [hreg] at hdtype
        exact hdtype.elim (fun h => Or.inr (Or.inr h)) fun h => Or.inr (Or.inl h)
    | other _ _ _ _ hentry => exact absurd rfl (hentry _ _)

/-! ### Steps that move no bytes -/

/-- The source of a request is opened: its size and its buffer are set. -/
lemma progress_of_read (hcopy : Copying t s d) (hr : t.Run s)
    {o : AioState.ReadAnswer} {stSize : ℕ} (hposs : o.Possible s.prog.aio)
    (hok : s.prog.aio.Faultless (.readOne o)) (hargv : s'.prog.argv = s.prog.argv)
    (hperm : World.Permits s.world s.prog (.aio (.readOne o)) s'.world)
    (hq : s.prog.aio.reqs.get? r = some q) (names : SameNames q q')
    (hhead : s.prog.aio.mgr.readHead = some r) (hstSize : o.stSize = some stSize)
    (hfsize : q'.fsize = toInt32 stSize) (hbuffer : q'.buffer = o.buf) (hst : q'.state = 1)
    (hawaits : s'.prog.aio.Awaits .pread r) : ∃ rel, Progress t s' r q' rel := by
  obtain ⟨p', w'⟩ := s'
  dsimp only at hargv hperm hawaits
  obtain ⟨rel, hfor⟩ := hcopy.tree.requests r q (Heap.last?_of_get? hq)
  obtain ⟨q₁, hq₁, hnames⟩ := hfor.request
  obtain rfl := Option.some.inj ((Heap.last?_of_get? hq).symm.trans hq₁)
  have hbind : s.prog.aio.mgr.readHead.bind s.prog.aio.reqs.get? = some q := by
    rw [hhead]
    exact hq
  have hlen : stSize = (t.content rel).length := by
    cases hperm with
    | openSrc _ q₂ loc _ hhead₂ hopen hsize =>
      obtain rfl := Option.some.inj (hbind.symm.trans hhead₂)
      rw [hnames.srcName] at hopen
      obtain rfl := hr.openRead_eq (by simp [hfor.reg]) hopen
      rw [hsize stSize hstSize, Fs.content, hcopy.tree.source]
      rfl
    | noSrc _ hfail =>
      have hfd : 0 ≤ o.fd := hok.1
      rw [hbind] at hfail
      exact absurd hfail (by simp; omega)
    | other _ _ _ _ _ _ hread => exact absurd rfl (hread _)
  have hmmap := (hposs.2 stSize hstSize).2
  have hnonneg : 0 ≤ toInt32 stSize := by
    rcases hok.2.2 with hzero | hbuf
    · obtain rfl : stSize = 0 := Option.some.inj (hstSize.symm.trans hzero)
      decide
    · exact toInt32_nonneg_of_mmap hmmap hbuf
  rw [hlen] at hnonneg
  refine ⟨rel, hfor.reg, hargv ▸ names.for hnames, ?_, ?_, Or.inl hawaits, fun h => by omega⟩
  · rw [hfsize, hlen, Setting.length_transferred hnonneg]
  · rw [hbuffer]
    refine hok.2.2.imp_left fun hzero => ?_
    have hnil : t.content rel = [] := by
      rw [← List.length_eq_zero_iff, ← hlen]
      exact Option.some.inj (hstSize.symm.trans hzero)
    rw [Setting.transferred, hnil, List.take_nil]

/-- A step of `aio_loop` or of the main thread, other than the end of the process. -/
lemma step_of_same_bytes (h : Data t s) (hcopy : Copying t s d) (hr : t.Run s)
    (hok : s.AioFaultless l)
    (hstep : s.step l = some s') (hl : ∀ c n, l ≠ .aio (.complete c n))
    (hended : s'.prog.aio.ended = none) : Data t s' := by
  obtain ⟨-, hfires, hperm⟩ := Sys.fires_of_step hstep
  have hargv := Prog.argv_of_fires hfires
  obtain ⟨hmem, hfs⟩ := hperm.same_bytes hl
  have hcontent : ∀ rel bytes, s'.world.fs.entry (rel ++ t.target) = some (.reg bytes) →
      bytes = [] ∨ bytes = t.transferred rel := fun rel bytes hb =>
    (hfs.new _ bytes hb).elim Or.inl (h.content rel bytes)
  rcases Prog.manager_step hr.locks (Sys.prog_step hstep) with heq | ⟨act, ha, hact⟩
  · refine ⟨fun r q hq hst => ?_, heq ▸ h.results, hcontent⟩
    rw [heq] at hq
    obtain ⟨rel, hp⟩ := h.requests r q hq hst
    exact ⟨rel, hp.keep hargv (.refl q) ⟨rfl, rfl⟩ Or.inl (fun o hw => heq ▸ hw) (by rw [hmem])
      (hfs.kept _ _)⟩
  have hcomplete := Sys.ne_complete_of_manager hact hl
  have hokA := Sys.faultless_of_manager hact hok
  have hawaits : ∀ r o, s.prog.aio.Awaits o r → s'.prog.aio.Awaits o r := fun r o hw =>
    hw.mono hr.ready.good ha hcomplete hended
  have hprep : ∀ r o, s'.prog.aio.Prepared o r → s'.prog.aio.Awaits o r := fun r o hw =>
    hw.imp fun c hc => ⟨Or.inl hc.1, hc.2⟩
  refine ⟨fun r q' hq' hst' => ?_, h.results.step hr.ready.good hokA ha, hcontent⟩
  cases hr.ready.good.descends ha hq' with
  | fresh _ _ hst => exact absurd hst hst'
  | old q hq names transfer hst =>
    obtain ⟨rel, hp⟩ := h.requests r q hq (hst ▸ hst')
    exact ⟨rel, hp.keep hargv names transfer (fun h => Or.inl (hst ▸ h)) (hawaits r) (by rw [hmem])
      (hfs.kept _ _)⟩
  | read q o stSize hq names hact' _ hhead hstSize hfsize hbuffer hst hnew =>
    subst hact'
    rcases hact with hclient | rfl
    · simp [Act.ofClient] at hclient
    · have hposs : o.Possible s.prog.aio := by
        generalize s'.prog.aio = a' at ha
        cases (AioState.fires_of_step ha).2 with
        | readOne _ _ _ _ _ hposs => exact hposs
      exact progress_of_read hcopy hr hposs hokA hargv hperm hq names hhead hstSize hfsize hbuffer
        hst (hprep r _ hnew)
  | opened q fd hq names transfer _ _ _ hst _ hnew =>
    obtain ⟨rel, hp⟩ := h.requests r q (Heap.last?_of_get? hq) (by omega)
    exact ⟨rel, hp.keep hargv names transfer (fun _ => Or.inr (hprep r _ hnew)) (hawaits r)
      (by rw [hmem]) (hfs.kept _ _)⟩

/-! ### The completion of an operation -/

/-- The bytes in the buffer of another request stay. -/
lemma load_store_of_ne (hr : t.Run s)
    {r₀ : ReqId} {q₀ : CopyRequest} {rel₀ : Loc} (hp₀ : Progress t s r₀ q₀ rel₀)
    (hp : Progress t s r q rel) (hq₀ : s.prog.aio.reqs.last? r₀ = some q₀)
    (hq : s.prog.aio.reqs.last? r = some q) (hst₀ : q₀.state ≠ 0) (hst : q.state ≠ 0)
    (hne : r ≠ r₀) :
    (s.world.mem.store q₀.buffer (t.transferred rel₀)).load q.buffer (t.transferred rel).length =
      s.world.mem.load q.buffer (t.transferred rel).length := by
  have hmapping : ∀ {r q rel}, Progress t s r q rel → s.prog.aio.reqs.last? r = some q →
      q.state ≠ 0 → t.transferred rel ≠ [] →
      s.prog.aio.mapping r = some (q.buffer, (t.transferred rel).length) := by
    intro r q rel hp hq hst hne
    rw [AioState.mapping, hq, Option.bind_some, CopyRequest.mapping, if_neg, hp.fsize,
      toUlong_nat (t.length_transferred_lt rel)]
    exact not_or.mpr ⟨hr.buffers.started r q hq hst, hp.buffer.resolve_left hne⟩
  by_cases h₀ : t.transferred rel₀ = []
  · rw [h₀, Memory.store_nil]
  by_cases h : t.transferred rel = []
  · simp [h]
  have hdisj := hr.buffers.disjoint_of_ne hne (hmapping hp hq hst h) (hmapping hp₀ hq₀ hst₀ h₀)
  have hle := le_pageRound (t.transferred rel).length
  have hle₀ := le_pageRound (t.transferred rel₀).length
  simp only [DisjointMaps] at hdisj
  exact Memory.load_store_of_disjoint (by omega)

/-- What is known about an operation in flight. -/
structure Pending (t : Setting) (s : Sys) (c : Iocb) (q : CopyRequest) (rel : Loc) : Prop where
  live : s.prog.aio.reqs.get? c.data = some q
  describes : c.Describes q
  progress : Progress t s c.data q rel
  nbytes : c.nbytes = (t.transferred rel).length
  file : s.world.files c.fd = some (t.fileOf rel c.opcode)
  reg : (s.world.fs.entry (t.fileOf rel c.opcode)).map Entry.kind = some .reg

lemma Pending.state_ne {c : Iocb} (h : Pending t s c q rel) : q.state ≠ 0 := by
  rw [h.describes.state]
  cases c.opcode <;> simp

lemma exists_pending (h : Data t s) (hcopy : Copying t s d) (hr : t.Run s)
    (hended : s.prog.aio.ended = none) {c : Iocb}
    (hmem : .pending c ∈ s.prog.aio.flight) : ∃ q rel, Pending t s c q rel := by
  obtain ⟨rel, hfor, hfile, hreg⟩ := hcopy.tree.mem_refs_of_pending hended hmem
  obtain ⟨xs, ys, b, hinv, -⟩ := hr.ready.good
  obtain ⟨q, hq, -, hdesc⟩ := hinv.refRec c
    (AioState.mem_refs_of_flight hmem)
  have hlast := Heap.last?_of_get? hq
  have hst : q.state ≠ 0 := by
    rw [hdesc.state]
    cases c.opcode <;> simp
  obtain ⟨rel', hp⟩ := h.requests c.data q hlast hst
  obtain rfl := hp.isFor hfor hlast
  have hlen : c.nbytes = (t.transferred rel').length := by
    rw [hdesc.nbytes, hp.fsize, toUlong_nat (t.length_transferred_lt rel')]
  exact ⟨q, rel', hq, hdesc, hp, hlen, hfile, hreg⟩

section

variable {c : Iocb} {q₀ : CopyRequest}

/-- A read completes: the buffer of its request has the content of the source. -/
lemma complete_pread (h : Data t s) (hcopy : Copying t s d) (hr : t.Run s)
    (hc : Pending t s c q₀ rel)
    (hop : c.opcode = .pread) (hworld : s'.world = s.world.transfer c c.nbytes)
    (hargv : s'.prog.argv = s.prog.argv) (hreqs : s'.prog.aio.reqs = s.prog.aio.reqs)
    (hawaits : ∀ r o, r ≠ c.data → s.prog.aio.Awaits o r → s'.prog.aio.Awaits o r)
    (hres : Results s'.prog.aio) : Data t s' := by
  have hcontent : s.world.fs.content (rel ++ t.root) = t.content rel := by
    rw [Fs.content, hcopy.tree.source]
    rfl
  have hfile : s.world.files c.fd = some (rel ++ t.root) := by rw [hc.file, hop]; rfl
  rw [World.transfer_pread hfile hop hc.describes.offset, hcontent, hc.nbytes, t.take_content,
    hc.describes.buf] at hworld
  have hlast := Heap.last?_of_get? hc.live
  refine ⟨fun r q hq hst => ?_, hres, by rw [hworld]; exact h.content⟩
  rw [hreqs] at hq
  by_cases hr' : r = c.data
  · subst hr'
    obtain rfl := Option.some.inj (hlast.symm.trans hq)
    have hp := hc.progress
    refine ⟨rel, hp.reg, hargv ▸ hp.names, hp.fsize, hp.buffer, Or.inr ?_, fun hst => ?_⟩
    · rw [hworld]
      exact Memory.load_store_self
    · have hone := hc.describes.state
      simp only [hop] at hone
      omega
  · obtain ⟨rel', hp⟩ := h.requests r q hq hst
    refine ⟨rel', hp.keep hargv (.refl q) ⟨rfl, rfl⟩ Or.inl (fun o => hawaits r o hr') ?_ ?_⟩
    · rw [hworld]
      exact load_store_of_ne hr hc.progress hp hlast hq hc.state_ne hst hr'
    · rw [hworld]
      exact id

/-- A write completes: the destination has the content of the source. -/
lemma complete_pwrite (h : Data t s) (hc : Pending t s c q₀ rel)
    (hop : c.opcode = .pwrite) (hworld : s'.world = s.world.transfer c c.nbytes)
    (hargv : s'.prog.argv = s.prog.argv) (hreqs : s'.prog.aio.reqs = s.prog.aio.reqs)
    (hawaits : ∀ r o, r ≠ c.data → s.prog.aio.Awaits o r → s'.prog.aio.Awaits o r)
    (hnot : ¬ s.prog.aio.Awaits .pread c.data) (hres : Results s'.prog.aio) : Data t s' := by
  have hfile : s.world.files c.fd = some (rel ++ t.target) := by rw [hc.file, hop]; rfl
  obtain ⟨old, hold⟩ : ∃ old, s.world.fs.entry (rel ++ t.target) = some (.reg old) := by
    have hreg := hc.reg
    rw [hop] at hreg
    obtain ⟨e, he, hk⟩ := Option.map_eq_some_iff.mp hreg
    obtain ⟨old, rfl⟩ := Entry.kind_eq_reg.mp hk
    exact ⟨old, he⟩
  have hload := hc.progress.loaded.resolve_left hnot
  have hbytes : s.world.mem.load c.buf c.nbytes = t.transferred rel := by
    rw [hc.describes.buf, hc.nbytes, hload]
  have hcontent : s.world.fs.content (rel ++ t.target) = old := by rw [Fs.content, hold]
  rw [World.transfer_pwrite hfile hop hc.describes.offset hbytes
    (by rw [hcontent]; exact h.content rel old hold)] at hworld
  have hself : s'.world.fs.entry (rel ++ t.target) = some (.reg (t.transferred rel)) := by
    rw [hworld]
    exact Fs.entry_setContent_self hold
  have hother : ∀ rel', rel' ≠ rel →
      s'.world.fs.entry (rel' ++ t.target) = s.world.fs.entry (rel' ++ t.target) := by
    intro rel' hne
    rw [hworld]
    exact Fs.entry_setContent_of_ne fun heq => hne (List.append_cancel_right heq)
  have hmem : s'.world.mem = s.world.mem := by rw [hworld]
  refine ⟨fun r q hq hst => ?_, hres, fun rel' bytes hb => ?_⟩
  · rw [hreqs] at hq
    by_cases hr' : r = c.data
    · subst hr'
      obtain rfl := Option.some.inj ((Heap.last?_of_get? hc.live).symm.trans hq)
      have hp := hc.progress
      exact ⟨rel, hp.reg, hargv ▸ hp.names, hp.fsize, hp.buffer, Or.inr (hmem ▸ hload),
        fun _ => Or.inr hself⟩
    · obtain ⟨rel', hp⟩ := h.requests r q hq hst
      refine ⟨rel', hp.keep hargv (.refl q) ⟨rfl, rfl⟩ Or.inl (fun o => hawaits r o hr')
        (by rw [hmem]) fun hdone => ?_⟩
      by_cases heq : rel' = rel
      · rw [heq, hself]
      · rw [hother rel' heq, hdone]
  · by_cases heq : rel' = rel
    · rw [heq, hself] at hb
      exact Or.inr (heq ▸ (Entry.reg.inj (Option.some.inj hb)).symm)
    · rw [hother rel' heq] at hb
      exact h.content rel' bytes hb

end

lemma step_complete (h : Data t s) (hcopy : Copying t s d) (hr : t.Run s)
    {c : Iocb} {n : ℕ}
    (hok : s.prog.aio.Faultless (.complete c n)) (hstep : s.step (.aio (.complete c n)) = some s') :
    Data t s' := by
  obtain ⟨hended, hfires, hperm⟩ := Sys.fires_of_step hstep
  have hact := (Prog.aio_step (Sys.prog_step hstep)).1
  have hres := h.results.step hr.ready.good hok hact
  have hargv := Prog.argv_of_fires hfires
  have hworld : s'.world = s.world.transfer c n := by
    generalize s'.world = w' at hperm
    cases hperm with
    | complete => rfl
    | other _ _ _ _ _ _ _ _ hcomplete => exact absurd rfl (hcomplete _ _)
  obtain ⟨haio, hmem⟩ : s'.prog.aio = { s.prog.aio with
      flight := ⟨c, some n⟩ :: s.prog.aio.flight.erase (.pending c) } ∧
      .pending c ∈ s.prog.aio.flight := by
    generalize s'.prog.aio = a' at hact
    cases (AioState.fires_of_step hact).2 with
    | complete _ _ hmem => exact ⟨rfl, hmem⟩
  obtain rfl : n = c.nbytes := hok
  obtain ⟨q, rel, hc⟩ := h.exists_pending hcopy hr hended hmem
  have hreqs : s'.prog.aio.reqs = s.prog.aio.reqs := by rw [haio]
  have hawaits : ∀ r o, r ≠ c.data → s.prog.aio.Awaits o r → s'.prog.aio.Awaits o r := by
    intro r o hne hw
    rw [haio]
    exact hw.complete (Ne.symm hne)
  cases hop : c.opcode with
  | pread => exact h.complete_pread hcopy hr hc hop hworld hargv hreqs hawaits hres
  | pwrite =>
    obtain ⟨xs, ys, b, hinv, -⟩ := hr.ready.good
    have hcref : c ∈ s.prog.aio.refs := AioState.mem_refs_of_flight hmem
    exact h.complete_pwrite hc hop hworld hargv hreqs hawaits
      (hinv.not_awaits hcref (by rw [hop]; decide)) hres

/-- **A run in which `aio_loop` meets no fault** has its bytes in place, as long as the process
does not fail. -/
theorem of_reaches {ok : Sys → Label → Prop} {batchSize : ℤ}
    (hok : ∀ s l, ok s l → s.AioFaultless l)
    (h : Reaches Sys.step ok (t.init batchSize) s)
    (hended : s.prog.aio.ended = none ∨ s.prog.aio.ended = some (.exited 0)) : Data t s := by
  refine h.invariant_of (J := fun s => Reaches Sys.step ok (t.init batchSize) s)
    (I := fun s => s.prog.aio.ended = none ∨ s.prog.aio.ended = some (.exited 0) → Data t s)
    (fun _ hr => hr) (fun {s l s'} hs hs' hdata hl hstep hended' => ?_)
    (fun _ => .init batchSize) hended
  have hended : s.prog.aio.ended = none ∨ s.prog.aio.ended = some (.exited 0) :=
    Or.inl (Sys.fires_of_step hstep).1
  have h := hdata hended
  obtain ⟨d, hcopy⟩ := Copying.of_reaches hs hended
  have hr := Setting.Run.of_reaches hs
  rcases h.ended_cases hr (hok s l hl) hstep with
    hended' | ⟨-, haio, hworld, hargv⟩ | ⟨-, hprog⟩ | ⟨-, hexit⟩
  · by_cases hcomplete : ∃ c n, l = .aio (.complete c n)
    · obtain ⟨c, n, rfl⟩ := hcomplete
      exact h.step_complete hcopy hr (hok s _ hl) hstep
    · exact h.step_of_same_bytes hcopy hr (hok s l hl) hstep
        (fun c n heq => hcomplete ⟨c, n, heq⟩) hended'
  · refine ⟨fun r q hq hst => ?_, ?_, by rw [hworld]; exact h.content⟩
    · rw [haio] at hq
      obtain ⟨rel, hp⟩ := h.requests r q hq hst
      exact ⟨rel, hp.keep hargv (.refl q) ⟨rfl, rfl⟩ Or.inl (fun o hw => by rw [haio]; exact hw)
        (by rw [hworld]) (by rw [hworld]; exact id)⟩
    · rw [haio]
      exact ⟨h.results.flight, h.results.events⟩
  · simp [hprog, Prog.fail, AioState.exit] at hended'
  · simp [hexit] at hended'

/-- When as many requests are finished as accepted, their files have their bytes. -/
lemma entry_of_request {batchSize : ℤ} (h : Data t s)
    (hprog : Reaches Prog.step anyLabel (Prog.init t.srcName t.dstName batchSize) s.prog)
    (halloc : s.prog.pc.allocated = false)
    (hlen : s.prog.aio.log.finished.length = s.prog.aio.log.accepted.length)
    (hreg : t.kind rel = some .reg) (hreq : s.Requested rel) :
    s.world.fs.entry (rel ++ t.target) = some (.reg (t.transferred rel)) := by
  obtain ⟨r, q, hq, hfor⟩ := hreq
  have hst := state_of_length hprog halloc hlen hq
  obtain ⟨rel', hp⟩ := h.requests r q hq (by omega)
  obtain rfl := hp.names.unique hfor hp.reg hreg
  obtain ⟨xs, ys, b, hinv, -⟩ := Prog.good_of_reaches hprog
  exact (hp.written hst).resolve_left (hinv.not_awaits_of_length hlen)

/-- **A run without faults** does not fail. -/
theorem ended_of_reaches {t : Task} {batchSize : ℤ}
    (h : Reaches Sys.step Sys.Faultless (t.init batchSize) s) :
    s.prog.aio.ended = none ∨ s.prog.aio.ended = some (.exited 0) := by
  refine h.invariant_of (J := fun s => Reaches Sys.step Sys.Faultless (t.init batchSize) s)
    (I := fun s => s.prog.aio.ended = none ∨ s.prog.aio.ended = some (.exited 0))
    (fun _ hr => hr) (fun {s l s'} hs _ hended hok hstep => ?_) (Or.inl rfl)
  obtain ⟨d, hcopy⟩ := Copying.of_reaches hs hended
  have hdata := of_reaches (fun _ _ hok => hok.aio) hs hended
  exact hdata.ended_of_faultless hcopy (Setting.Run.of_reaches hs) t.kinds hok hstep

end Data

end

end Cpr
