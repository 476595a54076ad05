import ConfigAudit.Proofs.Merging
import Mathlib.Data.List.Perm.Basic

/-!
# The order of the sources

Directories are listed in no particular order. Loading the same texts in another order permutes the
resources and leaves the variables and the names of the outputs alone; what an output holds can only
depend on the order if several texts define it.
-/

namespace ConfigAudit

open OrderedMap

/-- Whether a body has an `output` block with a name. -/
def Body.definesOutput (body : Body) (name : String) : Bool :=
  body.blocks.any fun b => b.kind == "output" && b.labels.head? == some name

namespace Document

/-- The entries of variables say no more than their keys. -/
theorem eq_of_lookup_inputs {table : NestingTable} {body : Body} {name : String} {v : Variable}
    (h : (ofBody table body).inputs.lookup name = some v) : v = ⟨name⟩ := by
  rw [ofBody_eq, lookup_ofEntries] at h
  obtain ⟨b, -, hb⟩ := List.mem_filterMap.1 (mem_of_getLast?_valuesOf h)
  unfold Block.input? at hb
  split_ifs at hb
  obtain ⟨label, -, hlabel⟩ := Option.map_eq_some_iff.1 hb
  cases hlabel
  rfl

/-- A document has an output of a name exactly if the body defines one. -/
theorem mem_keys_outputs {table : NestingTable} {body : Body} {name : String} :
    name ∈ (ofBody table body).outputs.keys ↔ body.definesOutput name := by
  rw [ofBody_eq, keys_ofEntries, List.mem_eraseDups, Body.definesOutput, List.any_eq_true]
  constructor
  · intro h
    obtain ⟨⟨key, output⟩, hmem, hname⟩ := List.mem_map.1 h
    obtain ⟨b, hb, hout⟩ := List.mem_filterMap.1 hmem
    unfold Block.output? at hout
    split_ifs at hout with hkind
    obtain ⟨label, hlabel, he⟩ := Option.map_eq_some_iff.1 hout
    cases he
    cases hname
    exact ⟨b, hb, by simp [hkind, hlabel]⟩
  · rintro ⟨b, hb, hdef⟩
    simp only [Bool.and_eq_true, beq_iff_eq] at hdef
    refine List.mem_map.2 ⟨(name, Output.ofBody name b.body), ?_, rfl⟩
    refine List.mem_filterMap.2 ⟨b, hb, ?_⟩
    rw [Block.output?, if_pos hdef.1, hdef.2, Option.map_some]

/-- If exactly one of several bodies defines an output, then it says what the output is. -/
theorem output_of_definedOnce (table : NestingTable) {bodies : List Body} {name : String}
    (hone : bodies.countP (·.definesOutput name) = 1) :
    ∃ output, ∀ part ∈ (bodies.map (ofBody table)).map Document.outputs,
      ∀ value, part.lookup name = some value → value = output := by
  rw [List.countP_eq_length_filter] at hone
  obtain ⟨only, honly⟩ := List.length_eq_one_iff.1 hone
  have hdefines : only.definesOutput name := by
    have hmem : only ∈ bodies.filter (·.definesOutput name) := by rw [honly]; simp
    exact (List.mem_filter.1 hmem).2
  have honlybound : name ∈ (ofBody table only).outputs.keys := mem_keys_outputs.2 hdefines
  obtain ⟨output, houtput⟩ := Option.isSome_iff_exists.1 ((lookup_isSome _ _).2 honlybound)
  refine ⟨output, ?_⟩
  -- any body whose map has an entry of this name defines it, and so is the only one
  intro part hpart value hvalue
  rw [List.map_map] at hpart
  obtain ⟨body, hbody, rfl⟩ := List.mem_map.1 hpart
  have hbound : name ∈ (ofBody table body).outputs.keys := by
    rw [← lookup_isSome]
    exact Option.isSome_iff_exists.2 ⟨value, hvalue⟩
  have hmem : body ∈ bodies.filter (·.definesOutput name) :=
    List.mem_filter.2 ⟨hbody, mem_keys_outputs.1 hbound⟩
  rw [honly, List.mem_singleton] at hmem
  subst hmem
  exact Option.some.inj (hvalue.symm.trans houtput)

/-- Permuted texts have permuted bodies. -/
theorem bodies_perm {parse : String → Option Body} {sources sources' : Sources}
    {bodies bodies' : List Body} (h : sources.ParseTo parse bodies)
    (h' : sources'.ParseTo parse bodies') (hp : sources.Perm sources') : bodies.Perm bodies' := by
  have hmap := hp.map fun s => parse s.text
  rw [h.apart, h'.apart] at hmap
  exact (List.map_perm_map_iff fun _ _ => Option.some.inj).1 hmap

/-- **The order of the sources matters only where documented.** If texts are loaded in another
order, and both concatenations parse to the structures of their texts in order, then the two
documents have the same resources up to order, the same variables, and outputs of the same names;
and an output that only one of the texts defines, however often, is the same in both. -/
theorem sources_perm (table : NestingTable) (parse : String → Option Body)
    {sources sources' : Sources} {bodies bodies' : List Body} (hp : sources.Perm sources')
    (h : sources.ParseTo parse bodies) (h' : sources'.ParseTo parse bodies') :
    ∃ d d' : Document,
      parseBy? parse table sources.concatenated = some d ∧
      parseBy? parse table sources'.concatenated = some d' ∧
      d.resources.Perm d'.resources ∧
      (∀ name, d.inputs.lookup name = d'.inputs.lookup name) ∧
      (∀ name, name ∈ d.outputs.keys ↔ name ∈ d'.outputs.keys) ∧
      ∀ name, bodies.countP (·.definesOutput name) = 1 →
        d.outputs.lookup name = d'.outputs.lookup name := by
  have hdocs : (bodies.map (ofBody table)).Perm (bodies'.map (ofBody table)) :=
    (bodies_perm h h' hp).map _
  have hinputs := mergedFrom_inputs table bodies
  have hinputs' := mergedFrom_inputs table bodies'
  have houtputs := mergedFrom_outputs table bodies
  have houtputs' := mergedFrom_outputs table bodies'
  refine ⟨_, _, parseBy?_concatenated h table, parseBy?_concatenated h' table, ?_, ?_, ?_, ?_⟩
  · rw [mergeAll_eq, mergeAll_eq]
    exact hdocs.flatMap_right _
  · intro name
    have hagreed : ∀ part ∈ (bodies.map (ofBody table)).map Document.inputs,
        ∀ v, part.lookup name = some v → v = ⟨name⟩ := by
      intro part hpart v hv
      rw [List.map_map] at hpart
      obtain ⟨body, -, rfl⟩ := List.mem_map.1 hpart
      exact eq_of_lookup_inputs hv
    exact hinputs.lookup_perm hinputs' (hdocs.map _) hagreed
  · intro name
    exact houtputs.mem_keys_perm houtputs' (hdocs.map _)
  · intro name hone
    obtain ⟨output, hagreed⟩ := output_of_definedOnce table hone
    exact houtputs.lookup_perm houtputs' (hdocs.map _) hagreed

end Document

set_option maxRecDepth 2000 in
theorem parseTo_twoTexts_reverse :
    Sources.ParseTo Body.parse? twoTexts.reverse twoBodies.reverse where
  apart := by with_unfolding_all rfl
  together := by with_unfolding_all rfl

/-- Two texts in both orders: the output `y` is the same, while `x` is defined in both texts. -/
theorem sources_perm_twoTexts :
    twoTexts.Perm twoTexts.reverse ∧ twoTexts.ParseTo Body.parse? twoBodies ∧
      Sources.ParseTo Body.parse? twoTexts.reverse twoBodies.reverse ∧
      twoBodies.countP (·.definesOutput "y") = 1 ∧
      ∃ d d' : Document,
        Document.parse? .standard twoTexts.concatenated = some d ∧
        Document.parse? .standard (Sources.concatenated twoTexts.reverse) = some d' ∧
        d.resources.Perm d'.resources ∧
        (∀ name, d.inputs.lookup name = d'.inputs.lookup name) ∧
        (∀ name, name ∈ d.outputs.keys ↔ name ∈ d'.outputs.keys) ∧
        d.outputs.lookup "y" = d'.outputs.lookup "y" := by
  have hp : twoTexts.Perm twoTexts.reverse := (List.reverse_perm twoTexts).symm
  have hone : twoBodies.countP (·.definesOutput "y") = 1 := by decide
  refine ⟨hp, parseTo_twoTexts, parseTo_twoTexts_reverse, hone, ?_⟩
  obtain ⟨d, d', hd, hd', hresources, hinputs, hnames, houtputs⟩ :=
    Document.sources_perm .standard Body.parse? hp parseTo_twoTexts parseTo_twoTexts_reverse
  exact ⟨d, d', hd, hd', hresources, hinputs, hnames, houtputs "y" hone⟩

end ConfigAudit
