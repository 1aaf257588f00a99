import Selectors.Proofs.Index.Buckets

/-!
# The index and the linear scan

Testing every selector in turn is the plain way to find those that match an element. The index
looks into a few buckets only, and this file shows that nothing is lost: for selectors that come
out of the compiler, an accepted element meets all keys, so it asks for the bucket that the
selector is filed in. What remains is the general account of look-ups.

* **`Rule`** — a selector list as it is added: its text compiles, and all of its selectors get one
  payload.
* **`linearScan`** — the matches found by testing every selector of a history.
* **`matchElement_perm_linearScan`** — the index finds the same matches, sorted.
-/

namespace Selectors

variable {P : Type}

/-- A selector list with the namespaces that it is read in and a payload. Its text is one that
    compiles, and `selectors` is what it compiles to. -/
structure Rule (P : Type) where
  namespaces : Namespaces
  text : String
  payload : P
  selectors : List (CompiledSelector Test)
  compiles : compileSelectors namespaces text = .ok selectors

/-- The selectors that some rules add, in order, each with the payload of its rule. -/
def Rule.history (rules : List (Rule P)) : List (CompiledSelector Test × P) :=
  rules.flatMap fun rule => rule.selectors.map fun selector => (selector, rule.payload)

/-- The index to which the selector lists of some rules have been added, from first to last. -/
def Index.ofRules (rules : List (Rule P)) : Index Test P :=
  rules.foldl (fun index rule => index.addAll rule.selectors rule.payload) empty

/-- The matches of an element found by testing one selector of a history after the other. A match
    carries the place of its selector in the whole history, the first one being 1. -/
def linearScan {t : Tree} (e : Element t) (history : List (CompiledSelector Test × P)) :
    List (Match P) :=
  ((history.zipIdx 1).filter fun added =>
    !added.1.1.neverMatches && added.1.1.test.accepts e).map fun added =>
      { specificity := added.1.1.specificity
        order := added.2
        pseudoElement? := added.1.1.pseudoElement?
        payload := added.1.2 }

/-- Adding rules is adding their selectors one by one. -/
theorem ofRules_eq_ofHistory (rules : List (Rule P)) :
    Index.ofRules rules = Index.ofHistory (Rule.history rules) := by
  unfold Index.ofRules Index.ofHistory Rule.history
  rw [List.foldl_flatMap]
  congr 1
  funext index rule
  rw [List.foldl_map]
  rfl

/-- Every selector of a rule is the compiled form of a selector that was read. -/
theorem exists_selector_of_mem_history {rules : List (Rule P)}
    {added : CompiledSelector Test × P} (h : added ∈ Rule.history rules) :
    ∃ selector : Selector, added.1 = selector.compile := by
  obtain ⟨rule, -, hrule⟩ := List.mem_flatMap.1 h
  obtain ⟨compiled, hcompiled, rfl⟩ := List.mem_map.1 hrule
  exact exists_selector_of_compileSelectors rule.compiles compiled hcompiled

/-- If acceptance implies the bucket, then the entries that a look-up of the element finds are the
    matches of the linear scan. -/
theorem map_filter_storedFrom {t : Tree} {e : Element t} (first : Nat)
    (history : List (CompiledSelector Test × P))
    (h : ∀ added ∈ history, added.1.test.accepts e = true →
      added.1.keys.bucket ∈ e.facts.buckets) :
    ((storedFrom first history).filter fun entry =>
        decide (entry.1 ∈ e.facts.buckets) && entry.2.test.accepts e).map (·.2.toMatch) =
      ((history.zipIdx first).filter fun added =>
        !added.1.1.neverMatches && added.1.1.test.accepts e).map fun added =>
          matchOf added.1.1 added.1.2 added.2 := by
  rw [storedFrom_eq_map, List.filter_map, List.map_map, List.filter_filter]
  refine congrArg (List.map _) (List.filter_congr ?_)
  intro call hcall
  have hbucket := h call.1 (List.fst_mem_of_mem_zipIdx hcall)
  show (decide (call.1.1.keys.bucket ∈ e.facts.buckets) && call.1.1.test.accepts e &&
    !call.1.1.neverMatches) = (!call.1.1.neverMatches && call.1.1.test.accepts e)
  rw [Bool.and_comm]
  cases haccepts : call.1.1.test.accepts e with
  | true => rw [decide_eq_true (hbucket haccepts), Bool.true_and]
  | false => rw [Bool.and_false]

/-- The index never changes the answer of a linear scan. Whatever rules have been added, the
    matches of an element of any tree are those of the scan over all selectors added, each once;
    and they come in ascending order of weight and number, which no two of them share. -/
theorem matchElement_perm_linearScan (rules : List (Rule P)) {t : Tree} (e : Element t) :
    ((Index.ofRules rules).matchElement e).Perm (linearScan e (Rule.history rules)) ∧
      ((Index.ofRules rules).matchElement e).Pairwise Match.Before := by
  have hclasses : e.facts.classes.Nodup := nodup_classes e.data
  have hbucket : ∀ added ∈ Rule.history rules, added.1.test.accepts e = true →
      added.1.keys.bucket ∈ e.facts.buckets := by
    intro added hadded haccepts
    obtain ⟨selector, hselector⟩ := exists_selector_of_mem_history hadded
    rw [hselector] at haccepts ⊢
    exact bucket_mem_buckets (keys_met_of_accepts haccepts)
  rw [ofRules_eq_ofHistory]
  refine ⟨?_, Index.lookup_pairwise _ hclasses _⟩
  refine (Index.lookup_perm _ hclasses _).trans (List.Perm.of_eq ?_)
  exact map_filter_storedFrom 1 (Rule.history rules) hbucket

/-- Three selectors for links, of which the last one never matches. -/
def linkRule : Rule String where
  namespaces := .empty
  text := "#one, p, [class~='']"
  payload := "link"
  selectors :=
    [Selector.compile ⟨.compound [.atom (.id "one")], none⟩,
      Selector.compile ⟨.compound [.atom (.typeName "p")], none⟩,
      Selector.compile ⟨.compound [.atom (.attribute ⟨.none, "class", some (.includesWord, "")⟩)], none⟩]
  compiles := by with_unfolding_all rfl

/-- One selector, of less weight than the one that matches a link. -/
def lastRule : Rule String where
  namespaces := .empty
  text := ".last"
  payload := "last"
  selectors := [Selector.compile ⟨.compound [.atom (.className "last")], none⟩]
  compiles := by with_unfolding_all rfl

/-- The third selector is not stored but counts as one, so the last one is number 4. It comes first,
    as it has less weight. -/
theorem matchElement_perm_linearScan_link :
    (Rule.history [linkRule, lastRule]).map (·.1.neverMatches) = [false, false, true, false] ∧
      (Index.ofRules [linkRule, lastRule]).matchElement (⟨1, linkData, rfl⟩ : Element linkTree) =
        [⟨⟨0, 1, 0⟩, 4, none, "last"⟩, ⟨⟨1, 0, 0⟩, 1, none, "link"⟩] := by
  obtain ⟨hperm, hpairwise⟩ :=
    matchElement_perm_linearScan [linkRule, lastRule] (⟨1, linkData, rfl⟩ : Element linkTree)
  have hscan : linearScan (⟨1, linkData, rfl⟩ : Element linkTree) (Rule.history [linkRule, lastRule]) =
      [⟨⟨1, 0, 0⟩, 1, none, "link"⟩, ⟨⟨0, 1, 0⟩, 4, none, "last"⟩] := by
    decide +kernel
  rw [hscan] at hperm
  have hascending : List.Pairwise Match.Before
      [⟨⟨0, 1, 0⟩, 4, none, "last"⟩, ⟨⟨1, 0, 0⟩, 1, none, "link"⟩] :=
    List.pairwise_pair.2 (Or.inl (by decide))
  refine ⟨by decide +kernel, List.Perm.eq_of_pairwise ?_ hpairwise hascending
    (hperm.trans (.swap _ _ _))⟩
  intro a b _ _ hab hba
  exact absurd hba (before_asymm hab)

end Selectors
