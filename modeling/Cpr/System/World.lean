/-
# The program in its environment

The environment of the program is the file system, the open directory stream, the files
behind the descriptors, and the bytes in memory.  It restricts the answers of the system
calls: a call succeeds only where the file system permits it, and then has its effect; any
call may fail at any time.  A transfer moves its bytes when the operation completes.
-/
import Cpr.Lib.Memory
import Cpr.Program.Main

namespace Cpr

open Unix

/-- A directory stream: the directory, the names in it when it was opened, and the names
that were returned so far. -/
structure DirStream where
  loc : Loc
  due : Finset Name
  seen : List Name

/-- The environment. -/
structure World where
  fs : Fs
  cwd : Loc
  dir : DirStream
  /-- The file that was last opened under each descriptor. -/
  files : ℤ → Option Loc
  mem : Memory

/-- The `d_type` of a file. -/
def DType.ofKind : Kind → DType
  | .dir => .dir
  | .reg => .reg
  | .lnk => .lnk
  | .fifo => .fifo
  | .sock => .sock
  | .blk => .blk
  | .chr => .chr

namespace World

variable (w : World)

/-- What `readdir` may return next: `.`, `..`, or an entry not returned yet, with its type
or `DT_UNKNOWN`. -/
def Lists (name : Name) (dtype : DType) : Prop :=
  name = dot ∨ name = dotdot ∨
    (name ∉ w.dir.seen ∧ ∃ e ∈ w.fs.entry (name :: w.dir.loc),
      dtype = .unknown ∨ dtype = .ofKind e.kind)

instance (name : Name) (dtype : DType) : Decidable (w.Lists name dtype) :=
  inferInstanceAs (Decidable (_ ∨ _ ∨ _ ∧ ∃ e ∈ w.fs.entry (name :: w.dir.loc), _))

/-- The bytes of a file after a write at an offset. -/
def overwrite (content : List UInt8) (offset : ℕ) (bytes : List UInt8) : List UInt8 :=
  content.take offset ++ List.replicate (offset - content.length) 0 ++ bytes ++
    content.drop (offset + bytes.length)

/-- The number of bytes that an operation with this result has moved: an error code, which
is negative, moves none. -/
def moved (c : Iocb) (res : ℕ) : ℕ := if res ≤ c.nbytes then res else 0

/-- The transfer of an operation that completes. -/
def transfer (c : Iocb) (res : ℕ) : World :=
  match w.files c.fd with
  | none => w
  | some l =>
    match c.opcode with
    | .pread =>
      { w with mem := w.mem.store c.buf (((w.fs.content l).drop c.offset).take (moved c res)) }
    | .pwrite =>
      { w with
        fs := w.fs.setContent l
          (overwrite (w.fs.content l) c.offset (w.mem.load c.buf (moved c res))) }

/-- A file is opened under a descriptor. -/
def openFile (fd : ℤ) (l : Loc) : World :=
  { w with files := fun x => if x = fd then some l else w.files x }

/-- `open`, `fstat` and `mmap` of the read phase, for the request `q`. -/
def openSrc (q : CopyRequest) (o : AioState.ReadAnswer) : Option World :=
  match w.fs.openRead w.cwd q.srcName with
  | none => none
  | some l =>
    if ∀ n ∈ o.stSize, n = (w.fs.content l).length then some (w.openFile o.fd l) else none

/-- `open` of the write phase, for the request `q`. -/
def openDst (q : CopyRequest) (fd : ℤ) : Option World :=
  match w.fs.openCreate w.cwd q.dstName with
  | .error _ => none
  | .ok (l, fs') => some { w.openFile fd l with fs := fs' }

/-- The environment after a step of `aio_loop` or of the kernel. -/
def afterAio (a : AioState) : Act → Option World
  | .readOne o =>
    if o.fd < 0 then some w
    else
      match a.mgr.readHead.bind a.reqs.get? with
      | none => some w
      | some q => w.openSrc q o
  | .writeOne fd =>
    if fd < 0 then some w
    else
      match a.mgr.writeHead.bind a.reqs.get? with
      | none => some w
      | some q => w.openDst q fd
  | .complete c res => some (w.transfer c res)
  | _ => some w

/-- The environment after a step, if it permits the answer. -/
def after (p : Prog) : Label → Option World
  | .stat (some k) =>
    match p.queue with
    | [] => none
    | curr :: _ => if w.fs.stat w.cwd curr.srcName = some k then some w else none
  | .mkdir true =>
    match p.queue with
    | [] => none
    | curr :: _ =>
      match w.fs.mkdir w.cwd curr.dstName with
      | .error _ => none
      | .ok fs' => some { w with fs := fs' }
  | .opendir true =>
    match p.queue with
    | [] => none
    | curr :: _ =>
      match w.fs.fileAt w.cwd curr.srcName with
      | none => none
      | some l =>
        if w.fs.entry l = some .dir then some { w with dir := ⟨l, w.fs.names l, []⟩ } else none
  | .readdir (.entry name dtype) =>
    if w.Lists name dtype then some { w with dir := { w.dir with seen := name :: w.dir.seen } }
    else none
  | .readdir .finished => if ∀ n ∈ w.dir.due, n ∈ w.dir.seen then some w else none
  | .aio act => w.afterAio p.aio act
  | _ => some w

end World

/-- The program and its environment. -/
structure Sys where
  prog : Prog
  world : World

namespace Sys

/-- The state when `main` starts. -/
def init (fs : Fs) (cwd : Loc) (srcName dstName : CStr) (batchSize : ℤ) : Sys where
  prog := .init srcName dstName batchSize
  world :=
    { fs := fs, cwd := cwd, dir := ⟨[], ∅, []⟩, files := fun _ => none, mem := fun _ => 0 }

/-- One step of the program in its environment. -/
def step (s : Sys) (l : Label) : Option Sys :=
  (s.prog.step l).bind fun p => (s.world.after s.prog l).map fun w => ⟨p, w⟩

end Sys

end Cpr
