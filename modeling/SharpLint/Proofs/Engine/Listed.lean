import SharpLint.Proofs.Engine.Applied
import SharpLint.Proofs.Engine.Reparse

/-!
# Listed documents

A run lists the documents that its edits name, and an edit can write what stands there already. The fix
for one part of a type is for all of its parts, and a part can be internal when it is made internal
(`listed_text_eq_partial`). Nothing else leaves a listed document as it was: an edit that formats adds
names, and an edit for any other declaration changes its words. So

    words as before  ↔  every applied edit restates its declaration          (shapes_eq_iff_restates)

and the same goes for the texts when the new one lexes back (`text_eq_iff_restates`). An edit that formats
adds names, but it can drop trivia at the same time, so that the text need not become longer.
-/

namespace SharpLint

/-- The tree of a text has the words of every other tree that prints the text and lexes back. -/
theorem Tree.shapes_eq_of_parse {text : String} {root new : Tree} (hparse : parse text = .ok root)
    (hback : new.LexesBack) (htext : new.fullText = text) : new.shapes = root.shapes := by
  rw [← htext] at hparse
  obtain ⟨ls, hls, hunit⟩ := parse_fullText.mp hparse
  obtain ⟨again, hagain, hshapes⟩ := (reparses_iff new).mpr ⟨hback, ls, root, hls, hunit⟩
  obtain rfl := Except.ok.inj (hagain.symm.trans hparse)
  exact hshapes.symm

namespace Engine

open Repair.Visibility (MakesInternal)

/-- The edit is for a public type, and for a declaration that is internal already. -/
def AppliedEdit.Restates (root : Tree) (a : AppliedEdit) : Prop :=
  a.code = Rule.SupportNamespace.descriptor.code ∧ Repair.Visibility.Restates root a.edit

/-! ## One tree and its edits -/

section

variable {text : String} {root new : Tree}

/-- Edits for public types that leave the words of a text as they are restate their declarations, and
leave the tree as it is if they do. -/
theorem Rewrites.restates_iff {edits : List Edit} (hparse : parse text = .ok root)
    (h : Rewrites Rule.SupportNamespace.descriptor.code root edits new) :
    (new.shapes = root.shapes → ∀ e ∈ edits, Repair.Visibility.Restates root e) ∧
      ((∀ e ∈ edits, Repair.Visibility.Restates root e) → new = root) := by
  obtain ⟨document, located, hedits, hfits, hmakes, hok⟩ := h
  have hmakes : ∀ l ∈ located, MakesInternal root l.edit := by
    intro l hl
    have hmake := hmakes l hl
    rwa [MakesFor, if_pos rfl] at hmake
  have hmem (e : Edit) : e ∈ edits ↔ e ∈ located.map Located.edit := by
    rw [hedits, List.mem_reverse]
  constructor
  · intro hshapes e he
    obtain ⟨l, hl, rfl⟩ := List.mem_map.mp ((hmem e).mp he)
    exact Repair.Visibility.restates_of_replaceTargets hparse hfits hmakes hok hshapes.symm l hl
  · intro hall
    exact Repair.Visibility.replaceTargets_of_restates hparse hfits hmakes hok
      fun l hl => hall l.edit ((hmem l.edit).mpr (List.mem_map_of_mem hl))

/-- Edits of which the ones that format add names, and which make the new tree of the old one if there
are no such edits: the words are as they were exactly when each edit restates its declaration. -/
theorem shapes_eq_iff_restates {applied : List AppliedEdit} (hparse : parse text = .ok root)
    (hnames : nameBytes root.tokens +
      applied.countP (·.code ≠ Rule.SupportNamespace.descriptor.code) ≤ nameBytes new.tokens)
    (hrewrites : (∀ a ∈ applied, a.code = Rule.SupportNamespace.descriptor.code) →
      Rewrites Rule.SupportNamespace.descriptor.code root (applied.map AppliedEdit.edit) new) :
    (new.shapes = root.shapes ↔ ∀ a ∈ applied, a.Restates root) ∧
      ((∀ a ∈ applied, a.Restates root) → new = root) := by
  have heq (hall : ∀ a ∈ applied, a.Restates root) : new = root := by
    refine ((hrewrites fun a ha => (hall a ha).1).restates_iff hparse).2 ?_
    exact List.forall_mem_map.mpr fun a ha => (hall a ha).2
  refine ⟨⟨fun hshapes a ha => ?_, fun hall => by rw [heq hall]⟩, heq⟩
  have hbytes : nameBytes new.tokens = nameBytes root.tokens := nameBytes_eq_of_words hshapes
  have hnone : applied.countP (·.code ≠ Rule.SupportNamespace.descriptor.code) = 0 := by omega
  have hcodes : ∀ a ∈ applied, a.code = Rule.SupportNamespace.descriptor.code := by
    intro a ha
    simpa using List.countP_eq_zero.mp hnone a ha
  have hrestates := ((hrewrites hcodes).restates_iff hparse).1 hshapes
  exact ⟨hcodes a ha, List.forall_mem_map.mp hrestates a ha⟩

end

/-! ## A run on source texts -/

/-- A document that a run over all codes lists has edits. Its words are as they were exactly when each
edit restates its declaration, and then so is the document. With a new tree that lexes back, the same
goes for the text from which the document was read, where the old tree prints it. -/
theorem text_eq_iff_restates {config : Config} {sources : List (String × String)} {w : Workspace}
    (hw : Workspace.ofSources sources = .ok w) :
    ∀ id ∈ ((ofConfig config).fixEverything w.snapshot).documents, ∃ d d',
      w.snapshot.find? id = some d ∧
      ((ofConfig config).fixEverything w.snapshot).snapshot.find? id = some d' ∧
      (ofConfig config).appliedIn w.snapshot id ≠ [] ∧
      (d'.root.shapes = d.root.shapes ↔
        ∀ a ∈ (ofConfig config).appliedIn w.snapshot id, a.Restates d.root) ∧
      ((∀ a ∈ (ofConfig config).appliedIn w.snapshot id, a.Restates d.root) → d' = d) ∧
      ∀ text, parse text = .ok d.root → d'.root.LexesBack →
        (d'.text = text ↔ d.text = text ∧
          ∀ a ∈ (ofConfig config).appliedIn w.snapshot id, a.Restates d.root) := by
  intro id hid
  have hs := Workspace.sound_snapshot hw
  obtain ⟨⟨d, hd⟩, happlied⟩ := appliedIn_of_listed hs hid
  obtain ⟨root, hroot, hnames, hrewrites⟩ := rewrites_fixEverything config hs hd
  obtain ⟨_, -, hparse⟩ := Snapshot.exists_source (Workspace.ofSources_eq_ok hw).1 d
    (Snapshot.mem_of_find? hd).1
  obtain ⟨hiff, heq⟩ := shapes_eq_iff_restates hparse hnames hrewrites
  refine ⟨d, { d with root := root }, hd, hroot, happlied, hiff, fun hall => ?_,
    fun text htext hback => ⟨fun hprints => ?_, ?_⟩⟩
  · rw [heq hall]
  · -- the words of the text are those of both trees
    have hall := hiff.mp (Tree.shapes_eq_of_parse htext hback hprints)
    exact ⟨(congrArg Tree.fullText (heq hall)).symm.trans hprints, hall⟩
  · rintro ⟨hprints, hall⟩
    exact (congrArg Tree.fullText (heq hall)).trans hprints

/-- A run lists a document with the text, and leaves the text and its words as they are. -/
def keepsListed (config : Config) (sources : List (String × String)) (text : String) : Bool :=
  (Workspace.ofSources sources).toOption.any fun w =>
    let r := (ofConfig config).fixEverything w.snapshot
    r.documents.any fun id => (w.snapshot.find? id).any fun d => (r.snapshot.find? id).any fun d' =>
      decide (d.text = text ∧ d'.text = text ∧ d'.root.shapes = d.root.shapes)

theorem exists_of_keepsListed {config : Config} {sources : List (String × String)} {text : String}
    (h : keepsListed config sources text = true)
    (hdollar : ∀ source ∈ sources, '$' ∉ source.2.toList) :
    ∃ w id d d', Workspace.ofSources sources = .ok w ∧
      id ∈ ((ofConfig config).fixEverything w.snapshot).documents ∧
      w.snapshot.find? id = some d ∧ parse text = .ok d.root ∧
      ((ofConfig config).fixEverything w.snapshot).snapshot.find? id = some d' ∧
      d'.text = text ∧ d'.root.shapes = d.root.shapes := by
  obtain ⟨w, hw, h⟩ := Workspace.exists_of_any h
  obtain ⟨id, hid, h⟩ := List.any_eq_true.mp h
  obtain ⟨d, hd, h⟩ := (Option.any_eq_true _ _).mp h
  obtain ⟨d', hd', h⟩ := (Option.any_eq_true _ _).mp h
  obtain ⟨hprints, htext, hshapes⟩ := of_decide_eq_true h
  refine ⟨w, id, d, d', hw, hid, hd, ?_, hd', htext, hshapes⟩
  -- the text tells from which source the document was read
  obtain ⟨source, hsource, hparse⟩ := Snapshot.exists_source (Workspace.ofSources_eq_ok hw).1 d
    (Snapshot.mem_of_find? hd).1
  have hsame : source.2 = text :=
    (Tree.fullText_of_parse hparse (hdollar source hsource)).symm.trans hprints
  rwa [hsame] at hparse

/-- A part of a type that is internal. -/
def internalPart : String :=
  "namespace Lucene.Net.Support \x7b internal partial class A \x7b \x7d \x7d"

/-- A public part of the same type comes first. -/
def partSources : List (String × String) :=
  [("A.cs", "namespace Lucene.Net.Support \x7b public partial class A \x7b \x7d \x7d"),
    ("B.cs", internalPart)]

theorem keepsListed_partSources : keepsListed .default partSources internalPart = true := by
  decide +kernel

/-- The part that is internal already is made internal with the public one. Its document is listed, with
the text that was read. -/
theorem listed_text_eq_partial :
    ∃ w, Workspace.ofSources partSources = .ok w ∧
      ∃ id ∈ ((ofConfig .default).fixEverything w.snapshot).documents, ∃ d d',
        w.snapshot.find? id = some d ∧ parse internalPart = .ok d.root ∧
        ((ofConfig .default).fixEverything w.snapshot).snapshot.find? id = some d' ∧
        d'.text = d.text ∧ d'.text = internalPart := by
  obtain ⟨w, id, d, d', hw, hid, hd, hparse, hd', htext, -⟩ :=
    exists_of_keepsListed keepsListed_partSources (by decide)
  have hprints : d.text = internalPart := Tree.fullText_of_parse hparse (by decide)
  exact ⟨w, hw, id, hid, d, d', hd, hparse, hd', htext.trans hprints.symm, htext⟩

theorem text_eq_iff_restates_partial :
    ∃ w id d d', Workspace.ofSources partSources = .ok w ∧
      id ∈ ((ofConfig .default).fixEverything w.snapshot).documents ∧
      w.snapshot.find? id = some d ∧ parse internalPart = .ok d.root ∧
      ((ofConfig .default).fixEverything w.snapshot).snapshot.find? id = some d' ∧
      (ofConfig .default).appliedIn w.snapshot id ≠ [] ∧
      (∀ a ∈ (ofConfig .default).appliedIn w.snapshot id, a.Restates d.root) ∧
      d'.root.LexesBack ∧ (d'.text = internalPart ↔ d.text = internalPart ∧
        ∀ a ∈ (ofConfig .default).appliedIn w.snapshot id, a.Restates d.root) := by
  obtain ⟨w, id, d, d', hw, hid, hd, hparse, hd', htext, hshapes⟩ :=
    exists_of_keepsListed keepsListed_partSources (by decide)
  obtain ⟨e, e', he, he', happlied, hiff, -, htexts⟩ := text_eq_iff_restates hw id hid
  obtain rfl := Option.some.inj (hd.symm.trans he)
  obtain rfl := Option.some.inj (hd'.symm.trans he')
  have hback : d'.root.LexesBack := by
    have hprints : d'.root.fullText = internalPart := htext
    refine (d'.root.reparses_iff.mp ⟨d.root, ?_, hshapes.symm⟩).1
    rw [hprints, hparse]
  exact ⟨w, id, d, d', hw, hid, hd, hparse, hd', happlied, hiff.mp hshapes, hback,
    htexts internalPart hparse hback⟩

end Engine

end SharpLint
