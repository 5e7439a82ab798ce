import Mathlib.Data.List.Basic
import Mathlib.Logic.Function.Basic

/-!
Encodings that say where they end: the text of one thing never goes on into the
text of another. Such texts can stand one behind the other, and what was written
can be read back in one way only, also while the last text is not there yet. They
are built from terminated texts and from texts with their size in front.
-/

namespace TAlib.Foundation

universe u v
variable {α : Type u} {β : Type v}

/-- From where a text starts, a reader knows what it is and where it ends. -/
def SelfDelimiting (encode : α → List β) : Prop :=
  ∀ x y a b, encode x ++ a = encode y ++ b → x = y ∧ a = b

namespace SelfDelimiting

variable {encode : α → List β}

theorem injective (h : SelfDelimiting encode) : Function.Injective encode :=
  fun x y heq => (h x y [] [] (by rw [heq])).1

/-- No text is the beginning of another one. -/
theorem eq_of_prefix (h : SelfDelimiting encode) {x y : α} (hstarts : encode x <+: encode y) :
    x = y := by
  obtain ⟨t, ht⟩ := hstarts
  have heq : encode x ++ t = encode y ++ [] := by rw [ht, List.append_nil]
  exact (h x y t [] heq).1

theorem prepend (h : SelfDelimiting encode) (mark : List β) :
    SelfDelimiting fun x => mark ++ encode x := by
  intro x y a b heq
  simp only [List.append_assoc] at heq
  exact h x y a b (List.append_cancel_left heq)

theorem append (h : SelfDelimiting encode) (mark : List β) :
    SelfDelimiting fun x => encode x ++ mark := by
  intro x y a b heq
  simp only [List.append_assoc] at heq
  obtain ⟨hxy, hrest⟩ := h x y _ _ heq
  exact ⟨hxy, List.append_cancel_left hrest⟩

/-- Up to a mark that does not occur before. -/
theorem terminated (hinj : Function.Injective encode) {stop : β} (hfree : ∀ x, stop ∉ encode x) :
    SelfDelimiting fun x => encode x ++ [stop] := by
  have hsplit : ∀ {s t a b : List β}, stop ∉ s → stop ∉ t →
      s ++ stop :: a = t ++ stop :: b → s = t ∧ a = b := by
    intro s
    induction s with
    | nil =>
        intro t a b _ ht heq
        cases t with
        | nil =>
            cases heq
            exact ⟨rfl, rfl⟩
        | cons c t =>
            cases heq
            exact absurd List.mem_cons_self ht
    | cons c s ih =>
        intro t a b hs ht heq
        cases t with
        | nil =>
            cases heq
            exact absurd List.mem_cons_self hs
        | cons d t =>
            obtain ⟨hcd, htail⟩ := List.cons.inj heq
            rw [List.mem_cons, not_or] at hs ht
            obtain ⟨hst, hab⟩ := ih hs.2 ht.2 htail
            exact ⟨by rw [hcd, hst], hab⟩
  intro x y a b heq
  simp only [List.append_assoc, List.singleton_append] at heq
  obtain ⟨htext, hab⟩ := hsplit (hfree x) (hfree y) heq
  exact ⟨hinj htext, hab⟩

/-- A text of any content behind its length. -/
theorem sized {size : Nat → List β} (h : SelfDelimiting size) :
    SelfDelimiting fun x : List β => size x.length ++ x := by
  intro x y a b heq
  simp only [List.append_assoc] at heq
  obtain ⟨hlen, hrest⟩ := h x.length y.length _ _ heq
  exact List.append_inj hrest hlen

/-- Texts one behind the other, when it is known how many there are. -/
theorem flatMap (h : SelfDelimiting encode) {xs ys : List α} {a b : List β}
    (hlen : xs.length = ys.length) (heq : xs.flatMap encode ++ a = ys.flatMap encode ++ b) :
    xs = ys ∧ a = b := by
  induction xs generalizing ys with
  | nil =>
      cases List.length_eq_zero_iff.mp hlen.symm
      exact ⟨rfl, heq⟩
  | cons x xs ih =>
      cases ys with
      | nil => cases hlen
      | cons y ys =>
          rw [List.flatMap_cons, List.flatMap_cons, List.append_assoc, List.append_assoc] at heq
          obtain ⟨rfl, htail⟩ := h x y _ _ heq
          obtain ⟨rfl, hab⟩ := ih (Nat.succ.inj hlen) htail
          exact ⟨rfl, hab⟩

/-- Texts one behind the other, with their number in front. -/
theorem counted {size : Nat → List β} (hsize : SelfDelimiting size) (h : SelfDelimiting encode) :
    SelfDelimiting fun xs : List α => size xs.length ++ xs.flatMap encode := by
  intro xs ys a b heq
  simp only [List.append_assoc] at heq
  obtain ⟨hlen, hrest⟩ := hsize xs.length ys.length _ _ heq
  exact h.flatMap hlen hrest

end SelfDelimiting

/-- What has come over a stream: whole texts, and the beginning of another one. -/
structure Framed (encode : α → List β) (stream : List β) (xs : List α) (part : List β) : Prop where
  stream_eq : stream = xs.flatMap encode ++ part
  begun : ∃ x, part <+: encode x ∧ part ≠ encode x

namespace Framed

variable {encode : α → List β} {stream part part' : List β} {xs ys : List α}

/-- A reader finds one row of texts in a stream. -/
theorem unique (hself : SelfDelimiting encode) (h : Framed encode stream xs part)
    (h' : Framed encode stream ys part') : xs = ys ∧ part = part' := by
  have hwhole : ∀ {x : α} {xs : List α} {part rest : List β},
      (∃ z, rest <+: encode z ∧ rest ≠ encode z) → rest ≠ (x :: xs).flatMap encode ++ part := by
    rintro x xs part rest ⟨z, hz, hne⟩ heq
    rw [List.flatMap_cons, List.append_assoc] at heq
    have hx : encode x <+: rest := ⟨_, heq.symm⟩
    cases hself.eq_of_prefix (hx.trans hz)
    exact hne (hz.eq_of_length (Nat.le_antisymm hz.length_le hx.length_le))
  have heq := h.stream_eq.symm.trans h'.stream_eq
  have hbegun := h.begun
  have hbegun' := h'.begun
  clear h h'
  induction xs generalizing ys with
  | nil =>
      cases ys with
      | nil => exact ⟨rfl, heq⟩
      | cons y ys => exact absurd heq (hwhole hbegun)
  | cons x xs ih =>
      cases ys with
      | nil => exact absurd heq.symm (hwhole hbegun')
      | cons y ys =>
          rw [List.flatMap_cons, List.flatMap_cons, List.append_assoc, List.append_assoc] at heq
          obtain ⟨rfl, htail⟩ := hself x y _ _ heq
          obtain ⟨rfl, hpart⟩ := ih htail
          exact ⟨rfl, hpart⟩

/-- A whole text comes behind whole texts. -/
theorem whole (h : Framed encode stream xs []) (x : α) :
    Framed encode (stream ++ encode x) (xs ++ [x]) [] := by
  refine ⟨?_, h.begun⟩
  rw [h.stream_eq, List.append_nil, List.append_nil, List.flatMap_append, List.flatMap_singleton]

/-- The beginning of a text comes behind whole texts. -/
theorem started (h : Framed encode stream xs []) {x : α} (hpart : part <+: encode x)
    (hne : part ≠ encode x) : Framed encode (stream ++ part) xs part := by
  refine ⟨?_, x, hpart, hne⟩
  rw [h.stream_eq, List.append_nil]

end Framed
end TAlib.Foundation
