import ConfigAudit.Proofs.Documents
import ConfigAudit.Sources.Basic

/-!
# Merging documents

Texts are merged before they are parsed. If the parser reads the concatenation as the structures of
all texts in order, this is the same as merging the documents of the texts: resources are appended,
while variables and outputs of one name collapse to the last one at the place of the first.

* `merge`, `mergeAll`: the merge of documents;
* `ofBody_append`, `ofBody_flatten`: building a document turns concatenation into the merge;
* `ParseTo`: all that is asked of the parser;
* `concatenation_merges`: the document of a concatenation.
-/

namespace ConfigAudit

open OrderedMap

namespace Document

/-- Two documents as one, the second after the first. -/
def merge (d e : Document) : Document :=
  ⟨d.resources ++ e.resources, d.inputs.merge e.inputs, d.outputs.merge e.outputs⟩

/-- Documents merged from left to right. -/
def mergeAll (docs : List Document) : Document := docs.foldl merge empty

theorem merge_empty (d : Document) : d.merge empty = d := by
  rw [merge, empty, List.append_nil, merge_nil, merge_nil]

theorem mergeAll_append_singleton (docs : List Document) (d : Document) :
    mergeAll (docs ++ [d]) = (mergeAll docs).merge d := by
  rw [mergeAll, List.foldl_append]
  rfl

/-- **Concatenated bodies make merged documents**, wherever a body is split. -/
theorem ofBody_append (table : NestingTable) (before after : Body) :
    ofBody table (before ++ after) = (ofBody table before).merge (ofBody table after) := by
  rw [ofBody_eq, ofBody_eq, ofBody_eq, merge, Body.blocks_append, List.filterMap_append,
    List.filterMap_append, List.filterMap_append, ofEntries_append, ofEntries_append]
  -- entries of the second body may be made a map before they are merged
  simp only [merge_ofEntries]

theorem ofBody_flatten (table : NestingTable) (bodies : List Body) :
    ofBody table bodies.flatten = mergeAll (bodies.map (ofBody table)) := by
  induction bodies using List.reverseRecOn with
  | nil => rfl
  | append_singleton bodies body ih =>
    have hflat : (bodies ++ [body]).flatten = bodies.flatten ++ body := by simp
    rw [hflat, ofBody_append, ih, List.map_append, List.map_singleton, mergeAll_append_singleton]

/-- The parts of merged documents, each merged on its own. -/
theorem mergeAll_eq (docs : List Document) :
    mergeAll docs =
      ⟨docs.flatMap Document.resources, ofEntries (docs.map Document.inputs).flatten,
        ofEntries (docs.map Document.outputs).flatten⟩ := by
  induction docs using List.reverseRecOn with
  | nil => rfl
  | append_singleton docs d ih =>
    rw [mergeAll_append_singleton, ih, merge]
    simp [ofEntries_append]

/-- The document of a text, for a given way of parsing. -/
def parseBy? (parse : String → Option Body) (table : NestingTable) (text : String) :
    Option Document :=
  (parse text).map (ofBody table)

theorem parse?_eq_parseBy? : parse? = parseBy? Body.parse? := rfl

end Document

/-- A parser reads texts one by one as bodies, and their concatenation as the structures of these
bodies in order. -/
structure Sources.ParseTo (parse : String → Option Body) (sources : Sources)
    (bodies : List Body) : Prop where
  apart : sources.map (fun s => parse s.text) = bodies.map some
  together : parse sources.concatenated = some bodies.flatten

namespace Document

section Parsed

variable {parse : String → Option Body} {sources : Sources} {bodies : List Body}

theorem parseBy?_text (h : sources.ParseTo parse bodies) (table : NestingTable) :
    sources.map (fun s => parseBy? parse table s.text) = (bodies.map (ofBody table)).map some := by
  have hmap := congrArg (List.map (Option.map (ofBody table))) h.apart
  rw [List.map_map, List.map_map] at hmap
  rw [List.map_map]
  exact hmap

theorem parseBy?_concatenated (h : sources.ParseTo parse bodies) (table : NestingTable) :
    parseBy? parse table sources.concatenated = some (mergeAll (bodies.map (ofBody table))) := by
  rw [parseBy?, h.together, Option.map_some, ofBody_flatten]

end Parsed

theorem mergedFrom_inputs (table : NestingTable) (bodies : List Body) :
    (mergeAll (bodies.map (ofBody table))).inputs.MergedFrom
      ((bodies.map (ofBody table)).map Document.inputs) := by
  rw [mergeAll_eq]
  exact mergedFrom_flatten
    (List.forall_mem_map.2 (List.forall_mem_map.2 fun body _ => distinct_inputs_ofBody table body))

theorem mergedFrom_outputs (table : NestingTable) (bodies : List Body) :
    (mergeAll (bodies.map (ofBody table))).outputs.MergedFrom
      ((bodies.map (ofBody table)).map Document.outputs) := by
  rw [mergeAll_eq]
  exact mergedFrom_flatten
    (List.forall_mem_map.2 (List.forall_mem_map.2 fun body _ => distinct_outputs_ofBody table body))

/-- **The document of a concatenation is the merge of the documents.** For every split of a body,
the document of the whole is the merge of the documents of the parts. Hence, if the concatenation of
texts parses to their structures in order, its document holds the resources of all texts, none
dropped or collapsed, and their variables and outputs, later ones overwriting earlier ones in
place. -/
theorem concatenation_merges (table : NestingTable) :
    (∀ bodies : List Body, ofBody table bodies.flatten = mergeAll (bodies.map (ofBody table))) ∧
    ∀ (parse : String → Option Body) (sources : Sources) (bodies : List Body),
      sources.ParseTo parse bodies →
      ∃ docs : List Document,
        sources.map (fun s => parseBy? parse table s.text) = docs.map some ∧
        parseBy? parse table sources.concatenated = some (mergeAll docs) ∧
        (mergeAll docs).resources = docs.flatMap Document.resources ∧
        (mergeAll docs).inputs.MergedFrom (docs.map Document.inputs) ∧
        (mergeAll docs).outputs.MergedFrom (docs.map Document.outputs) := by
  refine ⟨ofBody_flatten table, fun parse sources bodies h => ⟨bodies.map (ofBody table), ?_⟩⟩
  refine ⟨parseBy?_text h table, parseBy?_concatenated h table, ?_,
    mergedFrom_inputs table bodies, mergedFrom_outputs table bodies⟩
  rw [mergeAll_eq]

end Document

/-- Two texts with a resource of the same address and an output of the same name. -/
def twoTexts : Sources :=
  [⟨some "a.tf", "resource a b \x7b\x7d\noutput x \x7b value = 1 \x7d\n"⟩,
    ⟨none, "output y \x7b\x7d\noutput x \x7b value = 2 \x7d\nresource a b \x7b\x7d"⟩]

/-- The bodies of the two texts. -/
def twoBodies : List Body :=
  [[.block "resource" ["a", "b"] [],
      .block "output" ["x"] [.attribute "value" (.number (.whole 1))]],
    [.block "output" ["y"] [], .block "output" ["x"] [.attribute "value" (.number (.whole 2))],
      .block "resource" ["a", "b"] []]]

set_option maxRecDepth 2000 in
theorem parseTo_twoTexts : twoTexts.ParseTo Body.parse? twoBodies where
  apart := by with_unfolding_all rfl
  together := by with_unfolding_all rfl

/-- The two texts together. -/
theorem concatenation_merges_twoTexts :
    twoTexts.ParseTo Body.parse? twoBodies ∧
      ∃ docs : List Document,
        twoTexts.map (fun s => Document.parse? .standard s.text) = docs.map some ∧
        Document.parse? .standard twoTexts.concatenated = some (Document.mergeAll docs) ∧
        (Document.mergeAll docs).resources = docs.flatMap Document.resources ∧
        (Document.mergeAll docs).inputs.MergedFrom (docs.map Document.inputs) ∧
        (Document.mergeAll docs).outputs.MergedFrom (docs.map Document.outputs) := by
  rw [Document.parse?_eq_parseBy?]
  exact ⟨parseTo_twoTexts,
    (Document.concatenation_merges .standard).2 Body.parse? twoTexts twoBodies parseTo_twoTexts⟩

end ConfigAudit
