import Mathlib.Algebra.BigOperators.Group.List.Basic
import Mathlib.Algebra.GroupWithZero.Nat
import Mathlib.Data.List.Sort
import Selectors.Proofs.Index.Buckets

/-!
# Exact dispatch — what an index does with keys that nobody checked

Selectors may be put together by hand, and then their keys need not follow from their tests, nor
agree with each other. An index goes by the first key that is present and by no other one. So what
a look-up finds can be said without buckets: the selectors stored whose test accepts and whose
first key fits the element. An index files each of them once, and counts them as it goes.

* **`Keys.FirstFits`** — the first key that is present fits an element.
* **`bucket_mem_buckets_iff`** — that is what the choice of one bucket comes to.
* **`Index.matchElement_congr`** — what compiled selectors answer depends on their tests, not on
  their keys.
* **`Index.Dispatches`** — what is expected of an index after a history, in full.
* **`dispatches_ofHistory`** — every history leaves such an index.
-/

namespace Selectors

variable {T P : Type}

/-! ## The first key -/

/-- What the keys that are present ask of an element, in the order id, class, name, namespace and
    `lang` attribute. A name in lower case is no key by itself; it only says what to compare a
    name with. -/
def Keys.demands (keys : Keys) (facts : Facts) : List Prop :=
  (keys.id?.map fun name => facts.id? = some name).toList ++
  (keys.className?.map fun name => name ∈ facts.classes).toList ++
  (keys.localName?.map fun name =>
    facts.localName.toLower = keys.lowerLocalName?.getD name.toLower).toList ++
  (keys.namespaceUrl?.map fun url => facts.namespaceUrl = url).toList ++
  (if keys.needsLang then [facts.hasLang = true] else [])

/-- The first key that is present fits the element, or there is none. -/
def Keys.FirstFits (keys : Keys) (facts : Facts) : Prop :=
  (keys.demands facts).headD True

/-- An element asks for the bucket of a selector exactly if the first key fits it. -/
theorem bucket_mem_buckets_iff {keys : Keys} {facts : Facts} :
    keys.bucket ∈ facts.buckets ↔ keys.FirstFits facts := by
  rw [mem_buckets_iff]
  obtain ⟨id?, className?, localName?, lowerLocalName?, namespaceUrl?, needsLang⟩ := keys
  unfold Keys.FirstFits Keys.demands Keys.bucket
  cases id? with
  | some name => simp [BucketKey.Fits]
  | none =>
    cases className? with
    | some name => simp [BucketKey.Fits]
    | none =>
      cases localName? with
      | some name => simp [BucketKey.Fits]
      | none =>
        cases namespaceUrl? with
        | some url => simp [BucketKey.Fits]
        | none => cases needsLang <;> simp [BucketKey.Fits]

/-- Without a name as written, a name in lower case does not change the bucket. -/
theorem bucket_with_lowerLocalName {keys : Keys} (h : keys.localName? = none)
    (lower? : Option String) : { keys with lowerLocalName? := lower? }.bucket = keys.bucket := by
  obtain ⟨id?, className?, localName?, _, namespaceUrl?, needsLang⟩ := keys
  obtain rfl : localName? = none := h
  cases id? <;> cases className? <;> cases namespaceUrl? <;> cases needsLang <;> rfl

/-! ## How much is stored -/

/-- The entries of a map are those filed under one key and those of the other keys. -/
theorem sum_length_eq_add {κ α : Type} [BEq κ] [LawfulBEq κ] {entries : List (κ × List α)}
    (hdistinct : entries.Pairwise fun a b => (a.1 == b.1) = false) {key : κ} {bucket : List α}
    (hmem : (key, bucket) ∈ entries) :
    (entries.map (·.2.length)).sum =
      bucket.length + ((entries.filter fun entry => ¬(key == entry.1) = true).map
        (·.2.length)).sum := by
  induction entries with
  | nil => exact nomatch hmem
  | cons entry rest ih =>
    obtain ⟨hfirst, hrest⟩ := List.pairwise_cons.1 hdistinct
    rw [List.map_cons, List.sum_cons, List.filter_cons]
    rcases List.mem_cons.1 hmem with rfl | hmem
    · have hothers : rest.filter (fun entry => ¬(key == entry.1) = true) = rest := by
        rw [List.filter_eq_self]
        intro other hother
        simpa using hfirst other hother
      rw [if_neg (by simp), hothers]
    · have hne : (key == entry.1) = false := by
        have hentry := hfirst _ hmem
        rw [beq_eq_false_iff_ne] at hentry ⊢
        exact Ne.symm hentry
      rw [if_pos (by simp [hne]), List.map_cons, List.sum_cons, ih hrest hmem]
      omega

namespace Index

/-- The size adds up the lengths of the buckets. -/
theorem size_eq_sum (index : Index T P) :
    index.size = (index.buckets.toList.map (·.2.length)).sum := by
  unfold size
  rw [List.sum_eq_foldl, List.foldl_map]

@[simp] private theorem size_empty : (empty : Index T P).size = 0 := by
  rw [size_eq_sum]
  simp [empty]

/-- The selectors stored are those of one bucket and those of the others. -/
theorem size_eq_add (index : Index T P) (key : BucketKey) :
    index.size = (index.bucket key).length +
      ((index.buckets.toList.filter fun entry => ¬(key == entry.1) = true).map
        (·.2.length)).sum := by
  rw [size_eq_sum, bucket, Std.HashMap.getD_eq_getD_getElem?]
  cases hkey : index.buckets[key]? with
  | some bucket =>
    exact sum_length_eq_add Std.HashMap.distinct_keys_toList
      (Std.HashMap.mem_toList_iff_getElem?_eq_some.2 hkey)
  | none =>
    have hothers : (index.buckets.toList.filter fun entry => ¬(key == entry.1) = true) =
        index.buckets.toList := by
      rw [List.filter_eq_self]
      intro entry hentry
      have hsome := Std.HashMap.mem_toList_iff_getElem?_eq_some.1 hentry
      by_cases heq : key = entry.1
      · rw [← heq, hkey] at hsome
        cases hsome
      · simp [heq]
    rw [hothers]
    exact (Nat.zero_add _).symm

/-- A selector more in one bucket is a selector more in all. -/
theorem size_insert (index : Index T P) (key : BucketKey) (entry : Entry T P) (order : Nat) :
    ({ buckets := index.buckets.insert key (entry :: index.bucket key), order } : Index T P).size =
      index.size + 1 := by
  have hperm := (Std.HashMap.toList_insert_perm (m := index.buckets) (k := key)
    (v := entry :: index.bucket key)).map (·.2.length)
  rw [size_eq_sum, size_eq_add index key, hperm.sum_eq, List.map_cons, List.sum_cons,
    List.length_cons]
  omega

/-- One more selector is stored unless it never matches. -/
theorem size_add (index : Index T P) (selector : CompiledSelector T) (payload : P) :
    (index.add selector payload).size =
      index.size + if selector.neverMatches then 0 else 1 := by
  unfold add
  cases selector.neverMatches with
  | true => rfl
  | false => exact size_insert index _ _ _

/-- The calls of a history are counted, and those that store a selector are what is stored. -/
theorem order_and_size_foldl (history : List (CompiledSelector T × P)) (index : Index T P) :
    (history.foldl (fun index added => index.add added.1 added.2) index).order =
        index.order + history.length ∧
      (history.foldl (fun index added => index.add added.1 added.2) index).size =
        index.size + history.countP (!·.1.neverMatches) := by
  induction history generalizing index with
  | nil => exact ⟨rfl, rfl⟩
  | cons added rest ih =>
    obtain ⟨horder, hsize⟩ := ih (index.add added.1 added.2)
    rw [List.foldl_cons, horder, hsize, order_add, size_add, List.length_cons, List.countP_cons]
    cases added.1.neverMatches
    · simp
      omega
    · simp
      omega

end Index

/-! ## Where a selector is stored -/

/-- What is stored is what was added and may match, with its place in the history. -/
theorem mem_stored_iff {history : List (CompiledSelector T × P)}
    {stored? : BucketKey × Entry T P} :
    stored? ∈ stored history ↔
      ∃ selector payload order, ((selector, payload), order) ∈ history.zipIdx 1 ∧
        selector.neverMatches = false ∧
        stored? = (selector.keys.bucket, entryOf selector payload order) := by
  unfold stored
  rw [storedFrom_eq_map, List.mem_map]
  constructor
  · rintro ⟨⟨⟨selector, payload⟩, order⟩, hcall, rfl⟩
    obtain ⟨hmem, hlive⟩ := List.mem_filter.1 hcall
    exact ⟨selector, payload, order, hmem, by simpa using hlive, rfl⟩
  · rintro ⟨selector, payload, order, hmem, hlive, rfl⟩
    exact ⟨((selector, payload), order), List.mem_filter.2 ⟨hmem, by simpa using hlive⟩, rfl⟩

/-- Of entries with distinct numbers one has its number. -/
theorem filter_eq_singleton {α : Type} {number : α → Nat} {l : List α}
    (hdistinct : l.Pairwise fun a b => number a ≠ number b) {a : α} (h : a ∈ l) :
    l.filter (number · = number a) = [a] := by
  obtain ⟨front, back, rfl⟩ := List.append_of_mem h
  obtain ⟨-, hback, hfront⟩ := List.pairwise_append.1 hdistinct
  have hleft : front.filter (number · = number a) = [] := by
    rw [List.filter_eq_nil_iff]
    intro b hb
    simpa using hfront b hb a List.mem_cons_self
  have hright : back.filter (number · = number a) = [] := by
    rw [List.filter_eq_nil_iff]
    intro b hb
    simpa using Ne.symm ((List.pairwise_cons.1 hback).1 b hb)
  rw [List.filter_append, List.filter_cons, if_pos (by simp), hleft, hright]
  rfl

namespace Index

/-- A selector is in its own bucket, once, and in no other one. -/
theorem filter_bucket_ofHistory {history : List (CompiledSelector T × P)}
    {selector : CompiledSelector T} {payload : P} {order : Nat}
    (hcall : ((selector, payload), order) ∈ history.zipIdx 1)
    (hlive : selector.neverMatches = false) (key : BucketKey) :
    ((ofHistory history).bucket key).filter (·.order = order) =
      if key = selector.keys.bucket then [entryOf selector payload order] else [] := by
  have hdistinct : (stored history).Pairwise fun a b => a.2.order ≠ b.2.order := by
    have hnumbers := nodup_orders history
    rwa [List.Nodup, List.pairwise_map] at hnumbers
  -- the numbers are distinct, so one entry in the whole history has this one
  have hsingle : (stored history).filter (·.2.order = order) =
      [(selector.keys.bucket, entryOf selector payload order)] :=
    filter_eq_singleton hdistinct (mem_stored_iff.2 ⟨_, _, _, hcall, hlive, rfl⟩)
  rw [bucket_ofHistory, List.filter_reverse, List.filter_map, List.filter_filter]
  have hswap : (stored history).filter (fun entry =>
      ((fun e : Entry T P => decide (e.order = order)) ∘ Prod.snd) entry &&
        decide (entry.1 = key)) =
      ((stored history).filter (·.2.order = order)).filter (·.1 = key) := by
    rw [List.filter_filter]
    exact List.filter_congr fun entry _ => Bool.and_comm _ _
  rw [hswap, hsingle, List.filter_cons, List.filter_nil]
  by_cases hkey : selector.keys.bucket = key
  · rw [if_pos (by simpa using hkey), if_pos hkey.symm]
    rfl
  · rw [if_neg (by simpa using hkey), if_neg (Ne.symm hkey)]
    rfl

/-- A look-up finds the selectors stored whose test accepts and whose first key fits. -/
theorem mem_lookup_iff {history : List (CompiledSelector T × P)} {facts : Facts}
    (hclasses : facts.classes.Nodup) {accepts : T → Bool} {found : Match P} :
    found ∈ (ofHistory history).lookup facts accepts ↔
      ∃ selector payload order, ((selector, payload), order) ∈ history.zipIdx 1 ∧
        selector.neverMatches = false ∧ accepts selector.test = true ∧
        selector.keys.FirstFits facts ∧ found = matchOf selector payload order := by
  rw [(lookup_perm history hclasses accepts).mem_iff, List.mem_map]
  constructor
  · rintro ⟨entry, hentry, rfl⟩
    obtain ⟨hstored, hboth⟩ := List.mem_filter.1 hentry
    obtain ⟨selector, payload, order, hcall, hlive, rfl⟩ := mem_stored_iff.1 hstored
    obtain ⟨hbucket, haccepts⟩ := Bool.and_eq_true_iff.1 hboth
    exact ⟨selector, payload, order, hcall, hlive, haccepts,
      bucket_mem_buckets_iff.1 (of_decide_eq_true hbucket), rfl⟩
  · rintro ⟨selector, payload, order, hcall, hlive, haccepts, hfits, rfl⟩
    refine ⟨_, List.mem_filter.2 ⟨mem_stored_iff.2 ⟨_, _, _, hcall, hlive, rfl⟩, ?_⟩, rfl⟩
    exact Bool.and_eq_true_iff.2 ⟨decide_eq_true (bucket_mem_buckets_iff.2 hfits), haccepts⟩

end Index

/-! ## Compiled selectors -/

section Compiled

variable {t : Tree} {e : Element t}

/-- The mark of a compiled selector that never matches is right. -/
theorem neverMatches_eq_false_of_accepts {selector : Selector}
    (h : selector.compile.test.accepts e = true) : selector.compile.neverMatches = false := by
  show selector.complex.test.isNever = false
  rw [Bool.eq_false_iff]
  intro hnever
  rw [show selector.compile.test = .never from Test.isNever_iff.1 hnever] at h
  exact absurd h (by simp [Test.accepts])

/-- Compiled selectors are found by their tests alone: an element that a test accepts meets all keys
    of the selector, the first one included. -/
theorem Index.mem_matchElement_iff {history : List (CompiledSelector Test × P)}
    (hcompiled : ∀ added ∈ history, ∃ selector : Selector, added.1 = selector.compile)
    {found : Match P} :
    found ∈ (ofHistory history).matchElement e ↔
      ∃ compiled payload order, ((compiled, payload), order) ∈ history.zipIdx 1 ∧
        compiled.test.accepts e = true ∧ found = matchOf compiled payload order := by
  have hclasses : e.facts.classes.Nodup := nodup_classes e.data
  constructor
  · intro hfound
    obtain ⟨compiled, payload, order, hcall, -, haccepts, -, rfl⟩ :=
      (mem_lookup_iff hclasses).1 hfound
    exact ⟨compiled, payload, order, hcall, haccepts, rfl⟩
  · rintro ⟨compiled, payload, order, hcall, haccepts, rfl⟩
    obtain ⟨selector, hselector⟩ := hcompiled _ (List.fst_mem_of_mem_zipIdx hcall)
    obtain rfl : compiled = selector.compile := hselector
    have hfits : selector.compile.keys.FirstFits e.facts :=
      bucket_mem_buckets_iff.1 (bucket_mem_buckets (keys_met_of_accepts haccepts))
    exact (mem_lookup_iff hclasses).2 ⟨selector.compile, payload, order, hcall,
      neverMatches_eq_false_of_accepts haccepts, haccepts, hfits, rfl⟩

/-- Two selectors with payloads give an element the same match under any number, or both give it
    none. -/
structure SameMatch (e : Element t) (added added' : CompiledSelector Test × P) : Prop where
  accepts_eq : added.1.test.accepts e = added'.1.test.accepts e
  matchOf_eq : ∀ order, matchOf added.1 added.2 order = matchOf added'.1 added'.2 order

/-- Entries that correspond stand at the same place. -/
theorem exists_mem_zipIdx_of_forall₂ {α : Type} {R : α → α → Prop} {l l' : List α}
    (h : List.Forall₂ R l l') {first place : Nat} {a : α} (hmem : (a, place) ∈ l.zipIdx first) :
    ∃ a', (a', place) ∈ l'.zipIdx first ∧ R a a' := by
  induction h generalizing first with
  | nil => exact nomatch hmem
  | cons hhead _ ih =>
    rw [List.zipIdx_cons] at hmem ⊢
    rcases List.mem_cons.1 hmem with heq | hmem
    · obtain ⟨rfl, rfl⟩ := Prod.mk.inj heq
      exact ⟨_, List.mem_cons_self, hhead⟩
    · obtain ⟨a', hmem', hrel⟩ := ih hmem
      exact ⟨a', List.mem_cons_of_mem _ hmem', hrel⟩

/-- Two histories of compiled selectors that correspond to each other, one by one, in the matches of
    an element give it the same answer, whatever their keys are. -/
theorem Index.matchElement_congr {history history' : List (CompiledSelector Test × P)}
    (hcompiled : ∀ added ∈ history, ∃ selector : Selector, added.1 = selector.compile)
    (hcompiled' : ∀ added ∈ history', ∃ selector : Selector, added.1 = selector.compile)
    (h : List.Forall₂ (SameMatch e) history history') :
    (ofHistory history).matchElement e = (ofHistory history').matchElement e := by
  have hclasses : e.facts.classes.Nodup := nodup_classes e.data
  -- both answers are strictly ascending, so that they are equal if they have the same matches
  refine List.Pairwise.eq_of_mem_iff (lookup_pairwise history hclasses _)
    (lookup_pairwise history' hclasses _) fun found => ?_
  constructor
  · intro hfound
    obtain ⟨compiled, payload, order, hcall, haccepts, rfl⟩ :=
      (mem_matchElement_iff hcompiled).1 hfound
    obtain ⟨⟨compiled', payload'⟩, hcall', hsame⟩ := exists_mem_zipIdx_of_forall₂ h hcall
    exact (mem_matchElement_iff hcompiled').2 ⟨compiled', payload', order, hcall',
      hsame.accepts_eq ▸ haccepts, hsame.matchOf_eq order⟩
  · intro hfound
    obtain ⟨compiled, payload, order, hcall, haccepts, rfl⟩ :=
      (mem_matchElement_iff hcompiled').1 hfound
    obtain ⟨⟨compiled', payload'⟩, hcall', hsame⟩ := exists_mem_zipIdx_of_forall₂ h.flip hcall
    exact (mem_matchElement_iff hcompiled).2 ⟨compiled', payload', order, hcall',
      hsame.accepts_eq ▸ haccepts, (hsame.matchOf_eq order).symm⟩

end Compiled

namespace Index

/-! ## The whole account -/

/-- What an index does after a history, told by the history alone: what it has counted, where it
    keeps a selector, and what an element with some facts finds in it. -/
structure Dispatches (index : Index T P) (history : List (CompiledSelector T × P))
    (facts : Facts) (accepts : T → Bool) : Prop where
  /-- Every call counts. -/
  order_eq : index.order = history.length
  /-- A selector is stored by every call, except for those that never match. -/
  size_eq : index.size = history.countP (!·.1.neverMatches)
  /-- What a call stores is in one bucket, once, and in no other one. -/
  exists_bucket : ∀ selector payload order, ((selector, payload), order) ∈ history.zipIdx 1 →
    selector.neverMatches = false →
    ∃ home, ∀ key, (index.bucket key).filter (·.order = order) =
      if key = home then [entryOf selector payload order] else []
  /-- An element finds the selectors stored whose test accepts it and whose first key fits, under
      the number of their call. -/
  mem_iff : ∀ found, found ∈ index.lookup facts accepts ↔
    ∃ selector payload order, ((selector, payload), order) ∈ history.zipIdx 1 ∧
      selector.neverMatches = false ∧ accepts selector.test = true ∧
      selector.keys.FirstFits facts ∧ found = matchOf selector payload order
  /-- It finds them in strictly ascending order, so none of them twice. -/
  ascending : (index.lookup facts accepts).Pairwise Match.Before

/-- An index dispatches exactly, whatever the keys of its selectors are and whatever their tests;
    and a name in lower case alone is no key. -/
theorem dispatches_ofHistory (history : List (CompiledSelector T × P)) {facts : Facts}
    (hclasses : facts.classes.Nodup) (accepts : T → Bool) :
    (ofHistory history).Dispatches history facts accepts ∧
      ∀ (keys : Keys) (lower? : Option String), keys.localName? = none →
        { keys with lowerLocalName? := lower? }.bucket = keys.bucket := by
  obtain ⟨horder, hsize⟩ := order_and_size_foldl history (empty : Index T P)
  refine ⟨{ order_eq := ?_, size_eq := ?_, exists_bucket := ?_, mem_iff := ?_, ascending := ?_ },
    fun keys lower? hname => bucket_with_lowerLocalName hname lower?⟩
  · rw [ofHistory, horder]
    exact Nat.zero_add _
  · rw [ofHistory, hsize, size_empty, Nat.zero_add]
  · intro selector payload order hcall hlive
    exact ⟨selector.keys.bucket, filter_bucket_ofHistory hcall hlive⟩
  · exact fun found => mem_lookup_iff hclasses
  · exact lookup_pairwise history hclasses accepts

/-- A selector whose name contradicts its class for the elements it is used with below. -/
def classBeforeName : CompiledSelector Bool where
  test := true
  specificity := .ofClass
  keys := { className? := some "item", localName? := some "p" }

/-- A selector with a name in lower case only. -/
def lowerNameOnly : CompiledSelector Bool where
  test := true
  specificity := 0
  keys := { lowerLocalName? := some "p" }

/-- Four calls, the first for an id and the third for a selector that never matches. -/
def mixedHistory : List (CompiledSelector Bool × String) :=
  [({ classBeforeName with keys := { id? := some "other" } }, "id"), (classBeforeName, "class"),
    ({ classBeforeName with neverMatches := true }, "never"), (lowerNameOnly, "none")]

/-- The facts of a list item in two classes. -/
def itemFacts : Facts :=
  ⟨none, ["item", "last"], "LI", "", false⟩

/-- An item finds the selectors of its class and those without keys, not the one that never
    matches. -/
theorem mem_lookup_mixedHistory :
    itemFacts.classes.Nodup ∧
      matchOf classBeforeName "class" 2 ∈ (ofHistory mixedHistory).lookup itemFacts id ∧
      matchOf lowerNameOnly "none" 4 ∈ (ofHistory mixedHistory).lookup itemFacts id := by
  have hdispatches := (dispatches_ofHistory mixedHistory
    (by decide : itemFacts.classes.Nodup) id).1
  refine ⟨by decide, (hdispatches.mem_iff _).2 ?_, (hdispatches.mem_iff _).2 ?_⟩
  · refine ⟨classBeforeName, "class", 2, by simp [mixedHistory], rfl, rfl, ?_, rfl⟩
    exact (List.mem_cons_self : "item" ∈ itemFacts.classes)
  · refine ⟨lowerNameOnly, "none", 4, by simp [mixedHistory], rfl, rfl, ?_, rfl⟩
    exact trivial

end Index

end Selectors
