import Selectors.Proofs.Index.Keys

/-!
# What an index holds — buckets as parts of a history

An index is the outcome of a history: the selectors added so far, each with its payload. The
numbers of a history are the places in it, and what is stored is the history without the selectors
that never match. One step of a history adds at most one entry to one bucket, so by induction a
bucket is the part of the stored entries that is filed under its key. A look-up then finds the
stored entries whose bucket it asks for, each once, because no bucket is asked for twice.

* **`Index.ofHistory`** — the index after a history.
* **`bucket_ofHistory`** — what a bucket holds.
* **`lookup_perm`** and **`lookup_pairwise`** — what a look-up returns, and in which order.
-/

namespace Selectors

variable {T P : Type}

/-- The match that an entry of a history stands for, given its number. -/
def matchOf (selector : CompiledSelector T) (payload : P) (order : Nat) : Match P where
  specificity := selector.specificity
  order := order
  pseudoElement? := selector.pseudoElement?
  payload := payload

/-- The entries that a history leaves in an index, each with its bucket. Numbers start at `first`,
    and a selector that never matches uses one up without leaving an entry. -/
def storedFrom : Nat → List (CompiledSelector T × P) → List (BucketKey × Entry T P)
  | _, [] => []
  | first, (selector, payload) :: rest =>
    if selector.neverMatches then storedFrom (first + 1) rest
    else (selector.keys.bucket, ⟨matchOf selector payload first, selector.test⟩) ::
      storedFrom (first + 1) rest

/-- The entries that a whole history leaves; its first selector has the number one. -/
def stored (history : List (CompiledSelector T × P)) : List (BucketKey × Entry T P) :=
  storedFrom 1 history

/-- The entry that a call leaves, given its number. -/
def entryOf (selector : CompiledSelector T) (payload : P) (order : Nat) : Entry T P :=
  ⟨matchOf selector payload order, selector.test⟩

/-- The entries that a history leaves are those of its calls that store a selector. -/
theorem storedFrom_eq_map (first : Nat) (history : List (CompiledSelector T × P)) :
    storedFrom first history =
      ((history.zipIdx first).filter (!·.1.1.neverMatches)).map fun call =>
        (call.1.1.keys.bucket, entryOf call.1.1 call.1.2 call.2) := by
  induction history generalizing first with
  | nil => rfl
  | cons added rest ih =>
    obtain ⟨selector, payload⟩ := added
    rw [storedFrom, List.zipIdx_cons, List.filter_cons]
    cases hnever : selector.neverMatches with
    | true =>
      rw [if_pos rfl, if_neg (by simp)]
      exact ih (first + 1)
    | false =>
      rw [if_neg Bool.false_ne_true, if_pos (by simp), List.map_cons, ih (first + 1)]
      rfl

namespace Index

/-- The index after a history. -/
def ofHistory (history : List (CompiledSelector T × P)) : Index T P :=
  history.foldl (fun index added => index.add added.1 added.2) empty

/-! ## What a history does to the buckets -/

@[simp] private theorem bucket_empty (key : BucketKey) : (empty : Index T P).bucket key = [] := by
  simp [empty, bucket]

/-- A history puts its stored entries in front of their buckets, the last one first. -/
theorem bucket_foldl (key : BucketKey) (history : List (CompiledSelector T × P))
    (index : Index T P) :
    (history.foldl (fun index added => index.add added.1 added.2) index).bucket key =
      (((storedFrom (index.order + 1) history).filter (·.1 = key)).map Prod.snd).reverse ++
        index.bucket key := by
  induction history generalizing index with
  | nil => rfl
  | cons added rest ih =>
    obtain ⟨selector, payload⟩ := added
    rw [List.foldl_cons, ih, order_add, storedFrom]
    cases hnever : selector.neverMatches with
    | true => rw [bucket_add_of_never index payload hnever, if_pos rfl]
    | false =>
      rw [bucket_add index payload hnever, if_neg Bool.false_ne_true, List.filter_cons]
      by_cases hkey : selector.keys.bucket = key
      · rw [if_pos hkey, if_pos (decide_eq_true hkey), List.map_cons, List.reverse_cons,
          List.append_assoc]
        rfl
      · rw [if_neg hkey, if_neg (by simpa using hkey)]

/-- A bucket holds the stored entries that are filed under its key. -/
theorem bucket_ofHistory (history : List (CompiledSelector T × P)) (key : BucketKey) :
    (ofHistory history).bucket key =
      (((stored history).filter (·.1 = key)).map Prod.snd).reverse := by
  unfold ofHistory
  rw [bucket_foldl, bucket_empty, List.append_nil]
  rfl

/-! ## Numbers -/

/-- The entries of a history have ascending numbers, from the first one on. -/
theorem storedFrom_ascending (first : Nat) (history : List (CompiledSelector T × P)) :
    (∀ entry ∈ storedFrom first history, first ≤ entry.2.order) ∧
      (storedFrom first history).Pairwise (fun a b => a.2.order < b.2.order) := by
  induction history generalizing first with
  | nil => exact ⟨nofun, List.Pairwise.nil⟩
  | cons added rest ih =>
    obtain ⟨selector, payload⟩ := added
    obtain ⟨hlater, hrest⟩ := ih (first + 1)
    rw [storedFrom]
    split
    · refine ⟨fun entry hentry => ?_, hrest⟩
      have := hlater entry hentry
      omega
    · refine ⟨fun entry hentry => ?_, List.pairwise_cons.2 ⟨fun entry hentry => ?_, hrest⟩⟩
      · rcases List.mem_cons.1 hentry with rfl | hentry
        · exact Nat.le_refl _
        · have := hlater entry hentry
          omega
      · exact hlater entry hentry

/-- No two entries of a history have the same number. -/
theorem nodup_orders (history : List (CompiledSelector T × P)) :
    ((stored history).map (·.2.order)).Nodup := by
  rw [List.Nodup, List.pairwise_map]
  exact (storedFrom_ascending 1 history).2.imp Nat.ne_of_lt

/-! ## Looking up -/

/-- The parts of a list filed under distinct keys make up what is filed under any of them. -/
theorem flatMap_filter_perm {α κ : Type} [DecidableEq κ] (l : List (κ × α)) {keys : List κ}
    (h : keys.Nodup) :
    (keys.flatMap fun key => ((l.filter (·.1 = key)).map Prod.snd).reverse).Perm
      ((l.filter (·.1 ∈ keys)).map Prod.snd) := by
  induction keys with
  | nil => simp
  | cons key rest ih =>
    obtain ⟨hnew, hrest⟩ := List.nodup_cons.1 h
    -- the keys are distinct, so no entry is under `key` and also under one of the rest
    have hsplit : ((l.filter (·.1 = key)) ++ l.filter (·.1 ∈ rest)).Perm
        (l.filter (·.1 ∈ key :: rest)) := by
      have hboth := List.filter_append_perm (fun a : κ × α => decide (a.1 = key))
        (l.filter (·.1 ∈ key :: rest))
      rw [List.filter_filter, List.filter_filter] at hboth
      refine List.Perm.trans (List.Perm.of_eq (congrArg₂ (· ++ ·) ?_ ?_)) hboth
      · refine List.filter_congr fun a _ => ?_
        by_cases hkey : a.1 = key <;> simp [hkey]
      · refine List.filter_congr fun a _ => ?_
        by_cases hkey : a.1 = key
        · rw [hkey]
          simp [hnew]
        · simp [hkey]
    rw [List.flatMap_cons]
    refine List.Perm.trans ?_ (hsplit.map Prod.snd)
    rw [List.map_append]
    exact (List.reverse_perm _).append (ih hrest)

/-- What a look-up finds is stored, in a bucket that is asked for, and has a test that accepts; and
    all that is so is found, once. -/
theorem lookup_perm (history : List (CompiledSelector T × P)) {facts : Facts}
    (hclasses : facts.classes.Nodup) (accepts : T → Bool) :
    ((ofHistory history).lookup facts accepts).Perm
      (((stored history).filter fun entry =>
        decide (entry.1 ∈ facts.buckets) && accepts entry.2.test).map (·.2.toMatch)) := by
  have hcandidates : (facts.buckets.flatMap (ofHistory history).bucket).Perm
      (((stored history).filter (·.1 ∈ facts.buckets)).map Prod.snd) := by
    rw [funext (bucket_ofHistory history)]
    exact flatMap_filter_perm (stored history) (nodup_buckets hclasses)
  refine (List.mergeSort_perm _ _).trans ?_
  refine ((hcandidates.filter _).map _).trans (List.Perm.of_eq ?_)
  rw [List.filter_map, List.map_map, List.filter_filter]
  congr 1
  exact List.filter_congr fun entry _ => Bool.and_comm _ _

end Index

/-! ## The order of matches -/

/-- Whether a match comes before another one: it has less weight, or the same and a lower
    number. -/
def Match.Before (a b : Match P) : Prop :=
  a.specificity < b.specificity ∨ a.specificity = b.specificity ∧ a.order < b.order

private theorem specificity_lt_trichotomy (a b : Specificity) : a < b ∨ a = b ∨ b < a := by
  obtain ⟨_, _, _⟩ := a
  obtain ⟨_, _, _⟩ := b
  simp only [Specificity.lt_iff, Specificity.mk.injEq]
  omega

/-- Of two matches at most one comes before the other. -/
theorem before_asymm {a b : Match P} (hab : a.Before b) : ¬ b.Before a := by
  intro hba
  rcases hab with hlt | ⟨heq, hlt⟩
  · rcases hba with hlt' | ⟨heq', -⟩
    · rw [Specificity.lt_iff] at hlt hlt'
      omega
    · rw [heq', Specificity.lt_iff] at hlt
      omega
  · rcases hba with hlt' | ⟨-, hlt'⟩
    · rw [heq, Specificity.lt_iff] at hlt'
      omega
    · exact Nat.lt_asymm hlt hlt'

instance : Std.Irrefl (Match.Before (P := P)) := ⟨fun _ h => before_asymm h h⟩

instance : Std.Antisymm (Match.Before (P := P)) :=
  ⟨fun _ _ hab hba => absurd hba (before_asymm hab)⟩

/-- The order that matches are sorted by: weight first, then number. -/
theorem precedes_iff {a b : Match P} :
    a.precedes b = true ↔
      a.specificity < b.specificity ∨ a.specificity = b.specificity ∧ a.order ≤ b.order := by
  simp [Match.precedes]

private theorem precedes_trans {a b c : Match P} (hab : a.precedes b = true)
    (hbc : b.precedes c = true) :
    a.precedes c = true := by
  rw [precedes_iff] at *
  rcases hab with hab | ⟨hab, hab'⟩
  · rcases hbc with hbc | ⟨hbc, -⟩
    · refine Or.inl ?_
      rw [Specificity.lt_iff] at *
      omega
    · exact Or.inl (hbc ▸ hab)
  · rcases hbc with hbc | ⟨hbc, hbc'⟩
    · exact Or.inl (hab ▸ hbc)
    · exact Or.inr ⟨hab.trans hbc, Nat.le_trans hab' hbc'⟩

private theorem precedes_total (a b : Match P) : (a.precedes b || b.precedes a) = true := by
  rw [Bool.or_eq_true, precedes_iff, precedes_iff]
  rcases specificity_lt_trichotomy a.specificity b.specificity with h | h | h
  · exact Or.inl (Or.inl h)
  · rcases Nat.le_total a.order b.order with horder | horder
    · exact Or.inl (Or.inr ⟨h, horder⟩)
    · exact Or.inr (Or.inr ⟨h.symm, horder⟩)
  · exact Or.inr (Or.inl h)

/-- Matches come in strictly ascending order of weight and number. -/
theorem Index.lookup_pairwise (history : List (CompiledSelector T × P)) {facts : Facts}
    (hclasses : facts.classes.Nodup) (accepts : T → Bool) :
    ((ofHistory history).lookup facts accepts).Pairwise Match.Before := by
  have hsorted : ((ofHistory history).lookup facts accepts).Pairwise
      (fun a b => a.precedes b = true) :=
    @List.pairwise_mergeSort _ Match.precedes (fun _ _ _ => precedes_trans) precedes_total _
  have hscan : (((stored history).filter fun entry =>
      decide (entry.1 ∈ facts.buckets) && accepts entry.2.test).map (·.2.toMatch)).Pairwise
      (fun a b => a.order ≠ b.order) := by
    have hnumbers := nodup_orders history
    rw [List.Nodup, List.pairwise_map] at hnumbers
    rw [List.pairwise_map]
    exact hnumbers.filter _
  have hdistinct := hscan.perm (lookup_perm history hclasses accepts).symm Ne.symm
  refine (hsorted.and hdistinct).imp ?_
  rintro a b ⟨hle, hne⟩
  rcases precedes_iff.1 hle with hlt | ⟨heq, horder⟩
  · exact Or.inl hlt
  · exact Or.inr ⟨heq, Nat.lt_of_le_of_ne horder hne⟩

end Selectors
