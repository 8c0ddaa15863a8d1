import Mathlib.Data.List.Sort
import Mathlib.Data.String.Basic
import ArenaVariations.Proofs.Bulk.Discovery

/-!
# The order of templates

In a well-formed tree templates are found in the order of their names, compared one after the other
from the root: this is the order of a walk that takes siblings by name and goes through a folder
where it stands. The order is strict, so no template is found twice, and a search is determined by
the places where files are.
-/

namespace ArenaVariations

namespace Path

/-- A path comes before another one in the order of their names. -/
def Precedes (p q : Path) : Prop :=
  p.names < q.names

instance : Std.Irrefl Precedes :=
  ⟨fun p => List.lt_irrefl p.names⟩

instance : Std.Antisymm Precedes :=
  ⟨fun p _ before after => absurd (List.lt_trans before after) (List.lt_irrefl p.names)⟩

end Path

namespace Discovery

open FileTree (lookup_of_mem)

variable {d : Discovery} {root folder q : Path} {name : String} {t t' : FileTree Unit}

/-- What is found below a path stands there in the tree. -/
theorem exists_at?_of_mem_below (h : t.WellFormed)
    (mem : q ∈ d.below root (folder.join ⟨name⟩) name t) :
    ∃ ways, q = folder.descend (name :: ways) ∧ (∀ s ∈ ways, Path.IsName s) ∧
      t.at? ways = some (.file ()) := by
  induction h generalizing folder name with
  | file =>
    rw [below] at mem
    split at mem
    · exact ⟨[], List.mem_singleton.mp mem, List.forall_mem_nil _, rfl⟩
    · cases mem
  | folder names distinct each ih =>
    rw [below] at mem
    split at mem
    · cases mem
    · obtain ⟨e, among, inside⟩ := mem_entries.mp mem
      obtain ⟨ways, rfl, named, there⟩ := ih e among inside
      refine ⟨e.1 :: ways, rfl, List.forall_mem_cons.mpr ⟨names e among, named⟩, ?_⟩
      rw [FileTree.at?, lookup_of_mem distinct among]
      exact there

/-- What is found is what stands at places where a search looks. -/
theorem mem_templates_iff (h : t.WellFormed) :
    q ∈ d.templates root t ↔ ∃ dirs file, q = root.descend (dirs ++ [file]) ∧
      d.Shows root dirs file ∧ t.at? (dirs ++ [file]) = some (.file ()) := by
  constructor
  · intro mem
    obtain ⟨dirs, file, rfl, shows⟩ := mem_templates h.named mem
    refine ⟨dirs, file, rfl, shows, ?_⟩
    cases h with
    | file => cases mem
    | folder names distinct each =>
      obtain ⟨e, among, inside⟩ := mem_entries.mp mem
      obtain ⟨ways, same, named, there⟩ := exists_at?_of_mem_below (each e among) inside
      have all := List.forall_mem_cons.mpr ⟨names e among, named⟩
      have split := (Path.lead_names_descend root shows.names).2.symm.trans
        ((congrArg Path.names same).trans (Path.lead_names_descend root all).2)
      rw [List.append_cancel_left split, FileTree.at?, lookup_of_mem distinct among]
      exact there
  · rintro ⟨dirs, file, rfl, shows, there⟩
    exact mem_templates_of_at? dirs file there shows.template shows.passes

/-- What two entries lead to is in the order of the names of the entries. -/
theorem precedes_of_lt {p : Path} {e e' : String × FileTree Unit}
    (first : Path.IsName e.1) (h : e.2.WellFormed) (second : Path.IsName e'.1)
    (h' : e'.2.WellFormed)
    (lt : e.1 < e'.1) (mem : p ∈ d.below root (folder.join ⟨e.1⟩) e.1 e.2)
    (mem' : q ∈ d.below root (folder.join ⟨e'.1⟩) e'.1 e'.2) : p.Precedes q := by
  obtain ⟨ways, rfl, named, -⟩ := exists_at?_of_mem_below h mem
  obtain ⟨ways', rfl, named', -⟩ := exists_at?_of_mem_below h' mem'
  rw [Path.Precedes,
    (Path.lead_names_descend folder (List.forall_mem_cons.mpr ⟨first, named⟩)).2,
    (Path.lead_names_descend folder (List.forall_mem_cons.mpr ⟨second, named'⟩)).2]
  exact List.append_left_lt (List.cons_lt_cons_iff.mpr (.inl lt))

/-- What is found in a folder is in order if what is found below each entry is. -/
theorem pairwise_entries {entries : List (String × FileTree Unit)}
    (names : ∀ e ∈ entries, Path.IsName e.1) (distinct : (entries.map Prod.fst).Nodup)
    (each : ∀ e ∈ entries, e.2.WellFormed)
    (inner : ∀ e ∈ entries, (d.below root (folder.join ⟨e.1⟩) e.1 e.2).Pairwise Path.Precedes) :
    (((d.ofEntries root folder entries).mergeSort fun a b => a.1 ≤ b.1).flatMap Prod.snd).Pairwise
      Path.Precedes := by
  set found := d.ofEntries root folder entries with from_entries
  rw [ofEntries_eq] at from_entries
  set sorted := found.mergeSort fun a b => a.1 ≤ b.1
  have perm : sorted.Perm found := List.mergeSort_perm _ _
  have origin : ∀ a ∈ sorted, ∃ e ∈ entries,
      (e.1, d.below root (folder.join ⟨e.1⟩) e.1 e.2) = a := by
    intro a mem
    rw [perm.mem_iff, from_entries] at mem
    exact List.mem_map.mp mem
  have keys : found.map Prod.fst = entries.map Prod.fst := by
    rw [from_entries, List.map_map]
    rfl
  have le : sorted.Pairwise fun a b => a.1 ≤ b.1 := by
    refine (List.pairwise_mergeSort ?_ ?_ found).imp of_decide_eq_true
    · simpa using fun _ _ _ => le_trans
    · simpa using fun _ _ => le_total _ _
  have ne : sorted.Pairwise fun a b => a.1 ≠ b.1 := by
    rw [← keys, ← (perm.map Prod.fst).nodup_iff] at distinct
    exact List.pairwise_map.mp distinct
  rw [List.pairwise_flatMap]
  constructor
  · intro a mem
    obtain ⟨e, among, rfl⟩ := origin a mem
    exact inner e among
  · refine (le.and ne).imp_of_mem fun {a b} mem mem' both p inside q inside' => ?_
    obtain ⟨e, among, rfl⟩ := origin a mem
    obtain ⟨e', among', rfl⟩ := origin b mem'
    exact precedes_of_lt (names e among) (each e among) (names e' among') (each e' among')
      (lt_of_le_of_ne both.1 both.2) inside inside'

theorem pairwise_below (h : t.WellFormed) :
    (d.below root (folder.join ⟨name⟩) name t).Pairwise Path.Precedes := by
  induction h generalizing folder name with
  | file =>
    rw [below]
    split
    · exact List.pairwise_singleton _ _
    · exact .nil
  | folder names distinct each ih =>
    rw [below]
    split
    · exact .nil
    · exact pairwise_entries names distinct each fun e mem => ih e mem

theorem pairwise_templates (h : t.WellFormed) :
    (d.templates root t).Pairwise Path.Precedes := by
  cases h with
  | file => exact .nil
  | folder names distinct each =>
    exact pairwise_entries names distinct each fun e mem => pairwise_below (each e mem)

/-- Two trees with files at the same places where a search looks have the same templates. -/
theorem templates_congr (h : t.WellFormed) (h' : t'.WellFormed)
    (same : ∀ dirs file, d.Shows root dirs file →
      (t.at? (dirs ++ [file]) = some (.file ()) ↔ t'.at? (dirs ++ [file]) = some (.file ()))) :
    d.templates root t = d.templates root t' := by
  apply (pairwise_templates h).eq_of_mem_iff (pairwise_templates h')
  intro q
  rw [mem_templates_iff h, mem_templates_iff h']
  constructor
  · rintro ⟨dirs, file, path, shows, there⟩
    exact ⟨dirs, file, path, shows, (same dirs file shows).mp there⟩
  · rintro ⟨dirs, file, path, shows, there⟩
    exact ⟨dirs, file, path, shows, (same dirs file shows).mpr there⟩

end Discovery

end ArenaVariations
