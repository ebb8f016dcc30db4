import Mathlib.Algebra.BigOperators.Group.Finset.Basic
import Mathlib.Data.Finset.Powerset
import Mathlib.Data.Fintype.CardEmbedding

/-!
# Matching — counting one-to-one relations

A matching is a finite relation that is one-to-one both ways. Those that
cover a given finite set from another are its injections, counted by the
falling factorial, and every sum over matchings is a sum over the sets
they cover.
-/

namespace QkdEkm.Lib

universe u v

variable {α : Type u} {β : Type v}

/-- A relation that is one-to-one both ways. -/
structure IsMatching (m : Finset (α × β)) : Prop where
  left_unique : ∀ a b b', (a, b) ∈ m → (a, b') ∈ m → b = b'
  right_unique : ∀ a a' b, (a, b) ∈ m → (a', b) ∈ m → a = a'

theorem IsMatching.card_image_snd [DecidableEq β] {m : Finset (α × β)} (h : IsMatching m) :
    (m.image Prod.snd).card = m.card := by
  refine Finset.card_image_of_injOn ?_
  rintro ⟨a, b⟩ ha ⟨a', b'⟩ ha' heq
  cases heq
  rw [h.right_unique a a' b ha ha']

theorem IsMatching.card_image_fst [DecidableEq α] {m : Finset (α × β)} (h : IsMatching m) :
    (m.image Prod.fst).card = m.card := by
  refine Finset.card_image_of_injOn ?_
  rintro ⟨a, b⟩ ha ⟨a', b'⟩ ha' heq
  cases heq
  rw [h.left_unique a b b' ha ha']

open Classical in
/-- The matchings between part of `A` and part of `W`. -/
noncomputable def matchings (A : Finset α) (W : Finset β) : Finset (Finset (α × β)) :=
  (A ×ˢ W).powerset.filter IsMatching

theorem mem_matchings {A : Finset α} {W : Finset β} {m : Finset (α × β)} :
    m ∈ matchings A W ↔ m ⊆ A ×ˢ W ∧ IsMatching m := by
  simp [matchings]

variable [DecidableEq β]

/-- The matchings between part of `A` and all of `U`. -/
noncomputable def covering (A : Finset α) (U : Finset β) : Finset (Finset (α × β)) :=
  (matchings A U).filter fun m => m.image Prod.snd = U

theorem mem_covering {A : Finset α} {U : Finset β} {m : Finset (α × β)} :
    m ∈ covering A U ↔ m ⊆ A ×ˢ U ∧ IsMatching m ∧ m.image Prod.snd = U := by
  simp [covering, mem_matchings, and_assoc]

theorem covering_subset {A : Finset α} {U W : Finset β} (h : U ⊆ W) {m : Finset (α × β)}
    (hm : m ∈ covering A U) : m ∈ matchings A W :=
  have hc := mem_covering.mp hm
  mem_matchings.mpr ⟨hc.1.trans (Finset.product_subset_product_right h), hc.2.1⟩

/-- A sum over matchings is a sum over the sets they cover. -/
theorem sum_matchings {M : Type*} [AddCommMonoid M] (A : Finset α) (W : Finset β)
    (f : Finset (α × β) → M) :
    ∑ m ∈ matchings A W, f m = ∑ U ∈ W.powerset, ∑ m ∈ covering A U, f m := by
  have hmaps : ∀ m ∈ matchings A W, m.image Prod.snd ∈ W.powerset := by
    intro m hm
    rw [Finset.mem_powerset]
    intro b hb
    obtain ⟨⟨a, b⟩, hab, rfl⟩ := Finset.mem_image.mp hb
    exact (Finset.mem_product.mp ((mem_matchings.mp hm).1 hab)).2
  rw [← Finset.sum_fiberwise_of_maps_to hmaps]
  refine Finset.sum_congr rfl fun U hU => Finset.sum_congr ?_ fun _ _ => rfl
  ext m
  rw [Finset.mem_filter, mem_matchings, mem_covering]
  constructor
  · rintro ⟨⟨hsub, hm⟩, rfl⟩
    refine ⟨?_, hm, rfl⟩
    rintro ⟨a, b⟩ hab
    exact Finset.mem_product.mpr ⟨(Finset.mem_product.mp (hsub hab)).1,
      Finset.mem_image.mpr ⟨_, hab, rfl⟩⟩
  · intro hc
    exact ⟨mem_matchings.mp (covering_subset (Finset.mem_powerset.mp hU) (mem_covering.mpr hc)),
      hc.2.2⟩

variable [DecidableEq α]

/-- The relation of an injection of `U` into `A`. -/
def graph {A : Finset α} {U : Finset β} (f : U ↪ A) : Finset (α × β) :=
  Finset.univ.image fun u : U => ((f u : α), (u : β))

theorem mem_graph {A : Finset α} {U : Finset β} {f : U ↪ A} {a : α} {b : β} :
    (a, b) ∈ graph f ↔ ∃ hb : b ∈ U, a = f ⟨b, hb⟩ := by
  simp only [graph, Finset.mem_image, Finset.mem_univ, true_and, Prod.mk.injEq, Subtype.exists]
  constructor
  · rintro ⟨b, hb, rfl, rfl⟩
    exact ⟨hb, rfl⟩
  · rintro ⟨hb, rfl⟩
    exact ⟨b, hb, rfl, rfl⟩

theorem graph_mem_covering {A : Finset α} {U : Finset β} (f : U ↪ A) :
    graph f ∈ covering A U := by
  refine mem_covering.mpr ⟨?_, ⟨?_, ?_⟩, ?_⟩
  · rintro ⟨a, b⟩ hm
    obtain ⟨hb, rfl⟩ := mem_graph.mp hm
    exact Finset.mem_product.mpr ⟨(f ⟨b, hb⟩).2, hb⟩
  · intro a b b' hm hm'
    obtain ⟨hb, rfl⟩ := mem_graph.mp hm
    obtain ⟨hb', heq⟩ := mem_graph.mp hm'
    exact congrArg Subtype.val (f.injective (Subtype.ext heq))
  · intro a a' b hm hm'
    obtain ⟨hb, rfl⟩ := mem_graph.mp hm
    obtain ⟨_, rfl⟩ := mem_graph.mp hm'
    rfl
  · ext b
    simp only [Finset.mem_image, Prod.exists, exists_eq_right, mem_graph]
    exact ⟨fun ⟨_, hb, _⟩ => hb, fun hb => ⟨_, hb, rfl⟩⟩

/-- **Coverings are injections**, so the falling factorial counts them. -/
theorem card_covering (A : Finset α) (U : Finset β) :
    (covering A U).card = A.card.descFactorial U.card := by
  have hcard : (Finset.univ : Finset (U ↪ A)).card = A.card.descFactorial U.card := by
    rw [Finset.card_univ, Fintype.card_embedding_eq, Fintype.card_coe, Fintype.card_coe]
  rw [← hcard]
  symm
  refine Finset.card_bij (fun f _ => graph f) (fun f _ => graph_mem_covering f) ?_ ?_
  · intro f _ g _ heq
    ext ⟨b, hb⟩
    have hm : ((f ⟨b, hb⟩ : α), b) ∈ graph g := heq ▸ mem_graph.mpr ⟨hb, rfl⟩
    obtain ⟨_, h⟩ := mem_graph.mp hm
    exact h
  · intro m hm
    obtain ⟨hsub, hmatch, hcov⟩ := mem_covering.mp hm
    have hex : ∀ u : U, ∃ a : A, ((a : α), (u : β)) ∈ m := by
      rintro ⟨u, hu⟩
      rw [← hcov] at hu
      obtain ⟨⟨a, b⟩, hab, rfl⟩ := Finset.mem_image.mp hu
      exact ⟨⟨a, (Finset.mem_product.mp (hsub hab)).1⟩, hab⟩
    choose f hf using hex
    refine ⟨⟨f, fun u u' heq => ?_⟩, Finset.mem_univ _, ?_⟩
    · have := hf u'
      rw [← heq] at this
      exact Subtype.ext (hmatch.left_unique _ _ _ (hf u) this)
    · ext ⟨a, b⟩
      rw [mem_graph]
      constructor
      · rintro ⟨hb, rfl⟩
        exact hf ⟨b, hb⟩
      · intro hab
        have hb := (Finset.mem_product.mp (hsub hab)).2
        exact ⟨hb, hmatch.right_unique _ _ _ hab (hf ⟨b, hb⟩)⟩

end QkdEkm.Lib
