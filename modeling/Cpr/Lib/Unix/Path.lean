/-
# Path names

A path name is a string; the kernel reads it as a sequence of components separated by
slashes.  A location is the place of a file in the directory tree: the names on the way
from it up to the root, innermost first.
-/
import Mathlib.Data.List.DropRight

namespace Cpr.Unix

/-- A path name, without its terminator. -/
abbrev Path : Type := List Char

/-- The name of an entry of a directory. -/
abbrev Name : Type := List Char

instance : LawfulBEq Name := inferInstance

/-- The names from a file up to the root, innermost first. -/
abbrev Loc : Type := List Name

def dot : Name := ['.']
def dotdot : Name := ['.', '.']

/-- The names that an entry of a directory can have, besides `.` and `..`. -/
structure LegalName (n : Name) : Prop where
  ne_nil : n ≠ []
  noSlash : '/' ∉ n
  ne_dot : n ≠ dot
  ne_dotdot : n ≠ dotdot

instance (n : Name) : Decidable (LegalName n) :=
  decidable_of_iff (n ≠ [] ∧ '/' ∉ n ∧ n ≠ dot ∧ n ≠ dotdot)
    ⟨fun ⟨h₁, h₂, h₃, h₄⟩ => ⟨h₁, h₂, h₃, h₄⟩, fun ⟨h₁, h₂, h₃, h₄⟩ => ⟨h₁, h₂, h₃, h₄⟩⟩

/-- The components of a path.  Two slashes in a row, and a slash at an end, give an empty
component. -/
def components (p : Path) : List Name := p.splitOn '/'

/-- The components without the empty ones at the end. -/
def dropTrailing (cs : List Name) : List Name := cs.rdropWhile fun c => decide (c = [])

/-- The path of the entry `n` of the directory with path `p`. -/
def join (p : Path) (n : Name) : Path := p ++ '/' :: n

/-- The path of the file that lies at `rel` below the directory with path `p`. -/
def extend (p : Path) : Loc → Path
  | [] => p
  | n :: rel => join (extend p rel) n

variable {p q : Path} {n : Name} {rel rel' : Loc}

lemma components_join (hn : '/' ∉ n) : components (join p n) = components p ++ [n] := by
  rw [components, join, List.splitOn_append_cons_self, List.splitOn_eq_singleton hn]
  rfl

lemma components_ne_nil : components p ≠ [] := List.splitOn_ne_nil _ _

lemma join_ne_nil : join p n ≠ [] := by
  simp [join]

lemma noSlash_of_mem_components : ∀ c ∈ components p, '/' ∉ c := by
  induction p with
  | nil => simp [components]
  | cons x p ih =>
    rw [components, List.splitOn_cons_eq_if_modifyHead]
    have hne : components p ≠ [] := components_ne_nil
    unfold components at ih hne
    cases hp : p.splitOn '/' with
    | nil => exact absurd hp hne
    | cons c cs =>
      rw [hp] at ih
      split_ifs with hx
      · intro d hd
        rcases List.mem_cons.mp hd with rfl | hd
        · simp
        · exact ih d hd
      · intro d hd
        rcases List.mem_cons.mp hd with rfl | hd
        · simp only [beq_iff_eq] at hx
          simp only [List.mem_cons, not_or]
          exact ⟨fun h => hx h.symm, ih c List.mem_cons_self⟩
        · exact ih d (List.mem_cons_of_mem _ hd)

@[simp] lemma dropTrailing_concat (cs : List Name) (hn : n ≠ []) :
    dropTrailing (cs ++ [n]) = cs ++ [n] := by
  rw [dropTrailing, List.rdropWhile_concat_neg]
  simpa using hn

/-- Only a path of slashes has nothing but empty components. -/
lemma head?_of_dropTrailing (hp : p ≠ []) (hnil : dropTrailing (components p) = []) :
    p.head? = some '/' := by
  have hempty := List.rdropWhile_eq_nil_iff.mp hnil
  cases p with
  | nil => exact absurd rfl hp
  | cons c p =>
    by_cases hc : c = '/'
    · simp [hc]
    · obtain ⟨d, ds, hd⟩ := List.exists_cons_of_ne_nil (List.splitOnP_ne_nil (· == '/') p)
      have hmem : c :: d ∈ components (c :: p) := by
        simp [components, List.splitOn, List.splitOnP_cons_eq_if_modifyHead, hc, hd]
      simpa using hempty _ hmem

/-- The components, put together again from the ones that count and the empty ones. -/
lemma exists_dropTrailing_append (cs : List Name) :
    ∃ ds, cs = dropTrailing cs ++ ds ∧ ∀ d ∈ ds, d = [] := by
  refine ⟨cs.rtakeWhile fun c => decide (c = []), ?_, fun d hd => ?_⟩
  · exact List.rdropWhile_append_rtakeWhile.symm
  · simpa using List.mem_rtakeWhile_imp hd

@[simp] lemma extend_nil : extend p [] = p := rfl

@[simp] lemma extend_cons : extend p (n :: rel) = join (extend p rel) n := rfl

/-- The path below `p` determines the place below `p`. -/
lemma extend_injective (hrel : ∀ n ∈ rel, LegalName n) (hrel' : ∀ n ∈ rel', LegalName n)
    (h : extend p rel = extend p rel') : rel = rel' := by
  have hcomp : ∀ {r : Loc}, (∀ n ∈ r, LegalName n) →
      components (extend p r) = components p ++ r.reverse := by
    intro r hr
    induction r with
    | nil => simp
    | cons n r ih =>
      rw [extend_cons, components_join (hr n List.mem_cons_self).noSlash,
        ih fun m hm => hr m (List.mem_cons_of_mem _ hm)]
      simp
  have heq := congrArg components h
  rw [hcomp hrel, hcomp hrel'] at heq
  exact List.reverse_injective (List.append_cancel_left heq)

example : components ['/', 'a', '/', '/', 'b'] = [[], ['a'], [], ['b']] := by decide

end Cpr.Unix
