import JarIndex.Path
import Mathlib.Data.List.Lex
import Mathlib.Data.List.Nodup
import Mathlib.Data.Prod.Lex
import Mathlib.Data.String.Basic

/-!
# The order of paths

Paths are compared by their parts, as lists in lexicographic order. Sorted paths
with different parts increase strictly, and what increases strictly is determined
by its members.
-/

set_option autoImplicit false

namespace JarIndex.Path

def Part.key (p : Part) : ℕ ×ₗ String := toLex p.rank

def key (path : String) : List (ℕ ×ₗ String) := (parts path).map Part.key

def inOrder (paths : List String) : List String := paths.mergeSort fun a b => !before b a

def Increasing (paths : List String) : Prop := paths.Pairwise fun a b => before a b

variable {a b : String} {paths found : List String}

theorem Part.key_injective : Function.Injective Part.key := by
  intro p q h
  have hr : p.rank = q.rank := toLex.injective h
  cases p <;> cases q <;> simp_all [Part.rank]

theorem Part.before_iff {p q : Part} : p.before q ↔ p.key < q.key := by
  unfold Part.before Part.key
  rw [Prod.Lex.toLex_lt_toLex]
  simp

theorem partsBefore_iff {ps qs : List Part} :
    partsBefore ps qs ↔ ps.map Part.key < qs.map Part.key := by
  induction ps generalizing qs with
  | nil => cases qs <;> simp [partsBefore]
  | cons p ps ih =>
    cases qs with
    | nil => simp [partsBefore]
    | cons q qs =>
      rw [List.map_cons, List.map_cons, List.cons_lt_cons_iff, ← Part.before_iff, ← ih,
        Part.key_injective.eq_iff]
      simp [partsBefore]

theorem before_iff : before a b ↔ key a < key b := partsBefore_iff

theorem not_before_iff : !before b a ↔ key a ≤ key b := by
  rw [Bool.not_eq_true', Bool.eq_false_iff, ne_eq, before_iff, not_lt]

theorem inOrder_perm (paths : List String) : (inOrder paths).Perm paths :=
  List.mergeSort_perm _ _

theorem pairwise_inOrder (paths : List String) :
    (inOrder paths).Pairwise fun a b => key a ≤ key b := by
  have trans : ∀ a b c, !before b a → !before c b → !before c a := by
    intro a b c hab hbc
    rw [not_before_iff] at *
    exact hab.trans hbc
  have total : ∀ a b, (!before b a || !before a b) := by
    intro a b
    rw [Bool.or_eq_true, not_before_iff, not_before_iff]
    exact le_total _ _
  apply List.Pairwise.imp _ (List.pairwise_mergeSort trans total paths)
  intro a b h
  exact not_before_iff.mp h

theorem increasing_inOrder (h : (paths.map key).Nodup) : Increasing (inOrder paths) := by
  have distinct : (inOrder paths).Pairwise fun a b => key a ≠ key b := by
    rw [← List.pairwise_map]
    exact ((inOrder_perm paths).map key).nodup_iff.mpr h
  apply List.Pairwise.imp _ ((pairwise_inOrder paths).and distinct)
  intro a b hab
  exact before_iff.mpr (lt_of_le_of_ne hab.1 hab.2)

theorem Increasing.nodup_key (h : Increasing found) : (found.map key).Nodup := by
  unfold List.Nodup
  rw [List.pairwise_map]
  apply List.Pairwise.imp _ h
  intro a b hab
  exact (before_iff.mp hab).ne

theorem Increasing.ext (hp : Increasing paths) (hf : Increasing found)
    (h : ∀ path, path ∈ paths ↔ path ∈ found) : paths = found := by
  apply List.Perm.eq_of_pairwise _ hp hf
  · rw [List.perm_ext_iff_of_nodup hp.nodup_key.of_map hf.nodup_key.of_map]
    exact h
  · intro a b _ _ hab hba
    exact absurd (before_iff.mp hba) (before_iff.mp hab).asymm

theorem inOrder_of_perm (hf : Increasing found) (h : paths.Perm found) : inOrder paths = found := by
  have distinct : (paths.map key).Nodup := (h.map key).nodup_iff.mpr hf.nodup_key
  apply (increasing_inOrder distinct).ext hf
  intro path
  rw [(inOrder_perm paths).mem_iff, h.mem_iff]

end JarIndex.Path
