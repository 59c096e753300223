import Mathlib.Data.List.Basic

/-!
# Disjunctions of conjunctions

Outside its parentheses a text of a bind rule is a disjunction of conjunctions of members. Texts
that are put one behind the other, with a word between them, are taken together as such
disjunctions.
-/
namespace DirectoryAccess

abbrev Disjuncts (β : Type) := List (List β)

namespace Disjuncts

variable {β γ : Type}

/-- There is a conjunction, and none is empty. -/
def Full (D : Disjuncts β) : Prop :=
  D ≠ [] ∧ ∀ c ∈ D, c ≠ []

/-- Two texts with the word of conjunctions between them: the last conjunction of the first runs on
into the first one of the second. -/
def meet : Disjuncts β → Disjuncts β → Disjuncts β
  | [], E => E
  | [c], [] => [c]
  | [c], d :: E => (c ++ d) :: E
  | c :: d :: D, E => c :: meet (d :: D) E

/-- A word in front of a text is one for its first member. -/
def mapFirst (f : β → β) : Disjuncts β → Disjuncts β
  | (b :: c) :: D => (f b :: c) :: D
  | D => D

/-- The disjunction, written with the words of the connectives. -/
def text (f : β → String) (D : Disjuncts β) : String :=
  " OR ".intercalate (D.map (fun c => " AND ".intercalate (c.map f)))

theorem full_singleton {b : β} : Full [[b]] :=
  ⟨by simp, by simp⟩

theorem text_singleton {f : β → String} {b : β} : text f [[b]] = f b := by
  simp [text]

theorem Full.meet {D E : Disjuncts β} (hD : D.Full) (hE : E.Full) : (D.meet E).Full := by
  induction D with
  | nil => exact absurd rfl hD.1
  | cons c D ih =>
    obtain ⟨first, others⟩ := List.forall_mem_cons.mp hD.2
    cases D with
    | nil =>
      cases E with
      | nil => exact absurd rfl hE.1
      | cons d E =>
        obtain ⟨_, others'⟩ := List.forall_mem_cons.mp hE.2
        exact ⟨by simp [Disjuncts.meet], List.forall_mem_cons.mpr ⟨by simp [first], others'⟩⟩
    | cons d D =>
      have rest := ih ⟨by simp, others⟩
      exact ⟨by simp [Disjuncts.meet], List.forall_mem_cons.mpr ⟨first, rest.2⟩⟩

theorem text_meet {f : β → String} {D E : Disjuncts β} (hD : D.Full) (hE : E.Full) :
    (D.meet E).text f = D.text f ++ " AND " ++ E.text f := by
  induction D with
  | nil => exact absurd rfl hD.1
  | cons c D ih =>
    obtain ⟨first, others⟩ := List.forall_mem_cons.mp hD.2
    cases D with
    | nil =>
      cases E with
      | nil => exact absurd rfl hE.1
      | cons d E =>
        obtain ⟨first', _⟩ := List.forall_mem_cons.mp hE.2
        -- The one conjunction that is left runs on into the first of the second text.
        have run : " AND ".intercalate ((c ++ d).map f) =
            " AND ".intercalate (c.map f) ++ " AND " ++ " AND ".intercalate (d.map f) := by
          rw [List.map_append]
          exact String.intercalate_append_of_ne_nil (by simpa using first) (by simpa using first')
        cases E with
        | nil =>
          simp only [text, Disjuncts.meet, List.map_cons, List.map_nil,
            String.intercalate_singleton, run]
        | cons e E =>
          simp only [text, Disjuncts.meet, List.map_cons, List.map_nil,
            String.intercalate_singleton, String.intercalate_cons_cons, run, String.append_assoc]
    | cons d D =>
      have rest := ih ⟨by simp, others⟩
      have more :
          (Disjuncts.meet (d :: D) E).map (fun c => " AND ".intercalate (c.map f)) ≠ [] := by
        have full := (Full.meet (D := d :: D) ⟨by simp, others⟩ hE).1
        simpa using full
      -- The first conjunction is not the one that runs on, so it stays in front as it is.
      have step : ∀ F : Disjuncts β, F.map (fun c => " AND ".intercalate (c.map f)) ≠ [] →
          text f (c :: F) = " AND ".intercalate (c.map f) ++ " OR " ++ text f F := by
        intro F hF
        unfold text
        rw [List.map_cons]
        exact String.intercalate_cons_of_ne_nil hF
      rw [Disjuncts.meet, step _ more, rest, step (d :: D) (by simp)]
      simp only [String.append_assoc]

/-- Several texts with the word of conjunctions between them. -/
def meetAll (parts : List (Disjuncts β)) : Disjuncts β :=
  parts.foldr meet []

theorem meet_nil (D : Disjuncts β) : D.meet [] = D := by
  induction D with
  | nil => rfl
  | cons c D ih =>
    cases D with
    | nil => rfl
    | cons d D => rw [meet, ih]

theorem full_meetAll {parts : List (Disjuncts β)} (some' : parts ≠ [])
    (full : ∀ D ∈ parts, D.Full) : (meetAll parts).Full := by
  induction parts with
  | nil => exact absurd rfl some'
  | cons D parts ih =>
    obtain ⟨first, others⟩ := List.forall_mem_cons.mp full
    cases parts with
    | nil =>
      have alone : meetAll [D] = D := D.meet_nil
      rw [alone]
      exact first
    | cons E parts => exact first.meet (ih (by simp) others)

theorem text_meetAll {f : β → String} {parts : List (Disjuncts β)}
    (full : ∀ D ∈ parts, D.Full) :
    (meetAll parts).text f = " AND ".intercalate (parts.map (text f)) := by
  induction parts with
  | nil => rfl
  | cons D parts ih =>
    obtain ⟨first, others⟩ := List.forall_mem_cons.mp full
    cases parts with
    | nil =>
      have alone : meetAll [D] = D := D.meet_nil
      rw [alone, List.map_singleton, String.intercalate_singleton]
    | cons E parts =>
      have rest := full_meetAll (by simp) others
      rw [List.map_cons, String.intercalate_cons_of_ne_nil (by simp), ← ih others]
      exact text_meet first rest

theorem full_flatten {parts : List (Disjuncts β)} (some' : parts ≠ [])
    (full : ∀ D ∈ parts, D.Full) : Full parts.flatten := by
  constructor
  · intro empty
    cases parts with
    | nil => exact some' rfl
    | cons D parts => exact (full D (by simp)).1 (List.append_eq_nil_iff.mp empty).1
  · intro c hc
    obtain ⟨D, hD, mem⟩ := List.mem_flatten.mp hc
    exact (full D hD).2 c mem

theorem text_flatten {f : β → String} {parts : List (Disjuncts β)}
    (full : ∀ D ∈ parts, D.Full) :
    text f parts.flatten = " OR ".intercalate (parts.map (text f)) := by
  induction parts with
  | nil => rfl
  | cons D parts ih =>
    obtain ⟨first, others⟩ := List.forall_mem_cons.mp full
    cases parts with
    | nil =>
      rw [List.flatten_cons, List.flatten_nil, List.append_nil, List.map_singleton,
        String.intercalate_singleton]
    | cons E parts =>
      have rest := (full_flatten (by simp) others).1
      rw [List.map_cons, String.intercalate_cons_of_ne_nil (by simp), ← ih others,
        List.flatten_cons]
      unfold text
      rw [List.map_append]
      exact String.intercalate_append_of_ne_nil (by simpa using first.1) (by simpa using rest)

theorem Full.mapFirst {g : β → β} {D : Disjuncts β} (h : D.Full) : (D.mapFirst g).Full := by
  obtain ⟨some', full⟩ := h
  match D with
  | [] => exact absurd rfl some'
  | [] :: D => exact absurd rfl (full [] (by simp))
  | (b :: c) :: D =>
    obtain ⟨_, others⟩ := List.forall_mem_cons.mp full
    exact ⟨by simp [Disjuncts.mapFirst], List.forall_mem_cons.mpr ⟨by simp, others⟩⟩

theorem text_mapFirst {f : β → String} {g : β → β} {word : String}
    (h : ∀ b, f (g b) = word ++ f b) {D : Disjuncts β} (full : D.Full) :
    (D.mapFirst g).text f = word ++ D.text f := by
  obtain ⟨some', full'⟩ := full
  match D with
  | [] => exact absurd rfl some'
  | [] :: D => exact absurd rfl (full' [] (by simp))
  | (b :: c) :: D =>
    simp only [text, Disjuncts.mapFirst, List.map_cons, h, String.intercalate_cons_append]

/-! ### Maps -/

theorem flatten_meet (D E : Disjuncts β) : (D.meet E).flatten = D.flatten ++ E.flatten := by
  induction D with
  | nil => rfl
  | cons c D ih =>
    cases D with
    | nil => cases E <;> simp [meet]
    | cons d D => simp [meet, ih]

theorem flatten_meetAll (parts : List (Disjuncts β)) :
    (meetAll parts).flatten = parts.flatten.flatten := by
  induction parts with
  | nil => rfl
  | cons D parts ih =>
    show (D.meet (meetAll parts)).flatten = _
    rw [flatten_meet, ih, List.flatten_cons, List.flatten_append]

theorem forall_mem_mapFirst {P : β → Prop} {g : β → β} {D : Disjuncts β}
    (h : ∀ b ∈ D.flatten, P b) (step : ∀ b, P b → P (g b)) : ∀ b ∈ (D.mapFirst g).flatten, P b := by
  match D with
  | [] => exact h
  | [] :: D => exact h
  | (b :: c) :: D =>
    have first : P b := h b (by simp)
    intro a ha
    rcases List.mem_cons.mp ha with rfl | ha
    · exact step b first
    · exact h a (List.mem_cons_of_mem b ha)

end Disjuncts

end DirectoryAccess
