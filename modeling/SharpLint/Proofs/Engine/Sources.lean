import SharpLint.Engine.Basic
import SharpLint.Proofs.Document.Sound

/-!
# Sources in any order

Each source is read on its own, and the documents are kept in the order of their ids. So sources for
different documents give one snapshot, in whatever order they come (`ofSources_eq_of_perm`). Names are
bound from the snapshot alone:

    sources.Perm others  →  ofSources sources and ofSources others agree          (agrees_of_perm)

Where the latest declaration of a name counts, it is the latest in the order of the ids, and not the one
whose source came last.
-/

namespace SharpLint

theorem toOption_eq_some {ε α : Type} {x : Except ε α} {a : α} :
    x.toOption = some a ↔ x = .ok a := by
  cases x with
  | error e => simp [Except.toOption]
  | ok b => simp [Except.toOption]

namespace Snapshot

/-- What the sources are read to; those that cannot be read are left out. -/
def readable (sources : List (String × String)) : List Document :=
  sources.filterMap fun source => (Document.parse ⟨source.1⟩ source.2).toOption

variable {sources others : List (String × String)}

theorem mem_readable {d : Document} : d ∈ readable sources ↔
    ∃ source ∈ sources, Document.parse ⟨source.1⟩ source.2 = .ok d := by
  simp only [readable, List.mem_filterMap, toOption_eq_some]

theorem id_of_parse {id : DocumentId} {text : String} {d : Document}
    (h : Document.parse id text = .ok d) : d.id = id := by
  unfold Document.parse at h
  split at h
  · obtain rfl := Except.ok.inj h
    rfl
  · cases h

/-- Sources that can all be read are put in one after the other. -/
theorem ofSources_eq_foldl (h : ∀ source ∈ sources, ∃ root, parse source.2 = .ok root) :
    ofSources sources = .ok ((readable sources).foldl insert .empty) := by
  suffices hfold : ∀ start : Snapshot,
      sources.foldlM (fun s source => (Document.parse ⟨source.1⟩ source.2).map s.insert) start =
        .ok ((readable sources).foldl insert start) from hfold .empty
  induction sources with
  | nil => exact fun _ => rfl
  | cons source sources ih =>
    intro start
    rw [List.forall_mem_cons] at h
    obtain ⟨root, hroot⟩ := h.1
    have hparse : Document.parse ⟨source.1⟩ source.2 = .ok ⟨⟨source.1⟩, root⟩ := by
      rw [Document.parse, hroot]
    have hread : readable (source :: sources) = ⟨⟨source.1⟩, root⟩ :: readable sources := by
      rw [readable, List.filterMap_cons_some (by rw [hparse]; rfl)]
      rfl
    rw [List.foldlM_cons, hparse, hread]
    exact ih h.2 _

/-- The sources are for different documents. -/
def Apart (sources : List (String × String)) : Prop :=
  sources.Pairwise fun a b => DocumentId.same ⟨a.1⟩ ⟨b.1⟩ = false

instance (sources : List (String × String)) : Decidable (Apart sources) :=
  inferInstanceAs (Decidable (sources.Pairwise fun a b : String × String =>
    DocumentId.same ⟨a.1⟩ ⟨b.1⟩ = false))

theorem Apart.perm (h : Apart sources) (hperm : sources.Perm others) : Apart others :=
  hperm.pairwise h fun {a b} hab => by rwa [DocumentId.same_comm]

/-- The documents of sources for different documents: all that are read, in the order of their ids. -/
theorem documents_ofSources (hparse : ∀ source ∈ sources, ∃ root, parse source.2 = .ok root)
    (hapart : Apart sources) : ∃ s, ofSources sources = .ok s ∧ s.documents.Perm (readable sources) := by
  refine ⟨_, ofSources_eq_foldl hparse, ?_⟩
  have hdocuments : ((readable sources).foldl insert .empty).documents =
      (readable sources).foldl (fun xs d => upsert Document.id d (fun _ => d) xs) [] :=
    (List.foldl_hom Snapshot.documents fun _ _ => rfl).symm
  have hdifferent : (readable sources).Pairwise fun d e => d.id.same e.id = false := by
    refine List.pairwise_filterMap.mpr (hapart.imp fun {a b} hab d hd e he => ?_)
    rw [toOption_eq_some] at hd he
    rw [id_of_parse hd, id_of_parse he, hab]
  rw [hdocuments]
  exact foldl_upsert_perm hdifferent nofun

/-- Sources for different documents give one snapshot in any order. -/
theorem ofSources_eq_of_perm (hparse : ∀ source ∈ sources, ∃ root, parse source.2 = .ok root)
    (hapart : Apart sources) (hperm : sources.Perm others) : ofSources others = ofSources sources := by
  obtain ⟨s, hs, hread⟩ := documents_ofSources hparse hapart
  obtain ⟨t, ht, hread'⟩ := documents_ofSources
    (fun source hsource => hparse source (hperm.mem_iff.mpr hsource)) (hapart.perm hperm)
  have hsame : t.documents = s.documents :=
    t.sorted.eq_of_perm s.sorted ((hread'.trans (hperm.symm.filterMap _)).trans hread.symm)
  obtain rfl : t = s := eq_of_documents hsame
  rw [hs, ht]

end Snapshot

namespace Workspace

/-- The workspaces hold the same documents in the same order, and have one answer to everything: where
a symbol is declared, which symbol and type a node has, and what an engine reports. -/
structure Agrees (w v : Workspace) : Prop where
  documents : v.snapshot.documents = w.snapshot.documents
  declarations : ∀ symbol, v.host.declarationsOf symbol = w.host.declarationsOf symbol
  /-- For every document the same functions from nodes to symbols and types. -/
  bindings : ∀ document, v.host.bindings? document = w.host.bindings? document
  reports : ∀ e : Engine, e.analyze v.snapshot v.host = e.analyze w.snapshot w.host

/-- Sources for different documents give workspaces that agree, whatever their order: both hold what
each source is read to, in the order of the ids. -/
theorem agrees_of_perm {sources others : List (String × String)} (hperm : sources.Perm others)
    (hapart : Snapshot.Apart sources)
    (hparse : ∀ source ∈ sources, ∃ root, parse source.2 = .ok root) :
    ∃ w v, ofSources sources = .ok w ∧ ofSources others = .ok v ∧ w.Agrees v ∧
      SortedBy Document.id w.snapshot.documents ∧
      ∀ d, d ∈ w.snapshot.documents ↔
        ∃ source ∈ sources, Document.parse ⟨source.1⟩ source.2 = .ok d := by
  obtain ⟨s, hs, hread⟩ := Snapshot.documents_ofSources hparse hapart
  have hw : ofSources sources = .ok (ofSnapshot s) := by
    rw [ofSources, hs]
    rfl
  have hv : ofSources others = .ok (ofSnapshot s) := by
    rw [ofSources, Snapshot.ofSources_eq_of_perm hparse hapart hperm, hs]
    rfl
  refine ⟨ofSnapshot s, ofSnapshot s, hw, hv, ⟨rfl, fun _ => rfl, fun _ => rfl, fun _ => rfl⟩,
    s.sorted, fun d => ?_⟩
  exact hread.mem_iff.trans Snapshot.mem_readable

/-- Two types with a member of the same name. The one in `B.cs` counts, and makes `F` a number without
a point. -/
def memberSources : List (String × String) :=
  [("B.cs", "class B \x7b int F; \x7d"),
    ("A.cs", "class A \x7b float F; string M(float x) \x7b return x.ToString() + F.ToString(); \x7d \x7d")]

theorem agrees_of_perm_memberSources :
    memberSources.Perm memberSources.reverse ∧ Snapshot.Apart memberSources ∧
      (∀ source ∈ memberSources, ∃ root, parse source.2 = .ok root) ∧
      ∃ w v, ofSources memberSources = .ok w ∧ ofSources memberSources.reverse = .ok v ∧
        w.Agrees v ∧ v.snapshot.documents.map (·.id.spelling) = ["A.cs", "B.cs"] ∧
        (((Engine.ofConfig .default).analyze v.snapshot v.host).withCode "NG1001").length = 1 := by
  have hperm : memberSources.Perm memberSources.reverse := (List.reverse_perm memberSources).symm
  have hapart : Snapshot.Apart memberSources := by decide +kernel
  have hparse : ∀ source ∈ memberSources, ∃ root, parse source.2 = .ok root := by
    intro source hsource
    have hall : memberSources.all (fun source => (parse source.2).isOk) = true := by decide +kernel
    have hok := List.all_eq_true.mp hall source hsource
    cases hroot : parse source.2 with
    | error e =>
      rw [hroot] at hok
      cases hok
    | ok root => exact ⟨root, rfl⟩
  have hrun : (ofSources memberSources).toOption.any (fun w =>
      w.snapshot.documents.map (·.id.spelling) == ["A.cs", "B.cs"] &&
        (((Engine.ofConfig .default).analyze w.snapshot w.host).withCode "NG1001").length == 1) =
          true := by
    decide +kernel
  obtain ⟨w, v, hw, hv, hagrees, -⟩ := agrees_of_perm hperm hapart hparse
  rw [hw] at hrun
  obtain ⟨hids, hcount⟩ := Bool.and_eq_true_iff.mp hrun
  refine ⟨hperm, hapart, hparse, w, v, hw, hv, hagrees, ?_, ?_⟩
  · rw [hagrees.documents]
    exact beq_iff_eq.mp hids
  · rw [hagrees.reports]
    exact beq_iff_eq.mp hcount

end Workspace

end SharpLint
