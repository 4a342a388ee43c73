import DecafBackend.Layout.Linked

/-! # Chains of links

    A list of things is chained if the links of each of them name its neighbours.  A
    chain can be cut anywhere, and cut ends can be linked to something else, which
    concerns the thing at the end only.

    * `Chained` — the links of a list
    * `chained_append` — cutting a chain
    * `Chained.setNext`, `Chained.setPrev`, `Chained.relink` — linking ends to something
      else -/

namespace DecafBackend

variable {κ : Type}

/-- The neighbours of things: what is before and what is after each of them. -/
abbrev Links (κ : Type) := κ → Option (Option κ × Option κ)

/-- Things that are linked one after another, between `prev` and `next`. -/
def Chained (links : Links κ) : Option κ → List κ → Option κ → Prop
  | _, [], _ => True
  | prev, a :: rest, next =>
    links a = some (prev, rest.head?.or next) ∧ Chained links (some a) rest next

variable {links links' : Links κ} {prev next : Option κ} {list front back : List κ}

/-- The last key of a chain and what stands in front of it. -/
theorem or_getLast?_cons (a : κ) (list : List κ) (prev : Option κ) :
    (a :: list).getLast?.or prev = list.getLast?.or (some a) := by
  rw [List.getLast?_cons, Option.some_or]
  cases list.getLast? <;> rfl

/-- **CUTTING**: both parts of a chain are chains, each with the other at its end. -/
theorem chained_append : Chained links prev (front ++ back) next ↔
    Chained links prev front (back.head?.or next) ∧
      Chained links (front.getLast?.or prev) back next := by
  induction front generalizing prev with
  | nil => simp [Chained]
  | cons a front ih =>
      rw [List.cons_append, Chained, Chained, ih, or_getLast?_cons, List.head?_append,
        Option.or_assoc, and_assoc]

/-- The links of one thing in a chain. -/
theorem Chained.at {a : κ} (h : Chained links prev (front ++ a :: back) next) :
    links a = some (front.getLast?.or prev, back.head?.or next) :=
  (chained_append.mp h).2.1

/-- A chain depends on the links of its own things only. -/
theorem Chained.congr (h : Chained links prev list next)
    (hsame : ∀ a ∈ list, links' a = links a) : Chained links' prev list next := by
  induction list generalizing prev with
  | nil => trivial
  | cons a list ih =>
      refine ⟨(hsame a List.mem_cons_self).trans h.1, ih h.2 fun b hb => ?_⟩
      exact hsame b (List.mem_cons_of_mem a hb)

/-- A key outside of the chain is not its last one. -/
theorem getLast?_ne_some {a : κ} (h : a ∉ list) : list.getLast? ≠ some a :=
  fun hlast => h (List.mem_of_getLast? hlast)

/-- A key outside of the chain is not its first one. -/
theorem head?_ne_some {a : κ} (h : a ∉ list) : list.head? ≠ some a :=
  fun hhead => h (List.mem_of_head? hhead)

section

variable [DecidableEq κ]

/-- Says what is after a thing, if there is a thing. -/
def Links.setNext (links : Links κ) (a next : Option κ) : Links κ := fun b =>
  if a = some b then (links b).map fun link => (link.1, next) else links b

/-- Says what is before a thing, if there is a thing. -/
def Links.setPrev (links : Links κ) (a prev : Option κ) : Links κ := fun b =>
  if a = some b then (links b).map fun link => (prev, link.2) else links b

/-- Another key keeps its links when the next one is set. -/
theorem Links.setNext_other {a : Option κ} {b : κ} (h : a ≠ some b) :
    links.setNext a next b = links b := if_neg h

/-- Another key keeps its links when the previous one is set. -/
theorem Links.setPrev_other {a : Option κ} {b : κ} (h : a ≠ some b) :
    links.setPrev a prev b = links b := if_neg h

theorem Links.setNext_none (links : Links κ) (target : Option κ) :
    links.setNext none target = links :=
  funext fun _ => Links.setNext_other (Option.some_ne_none _).symm

theorem Links.setPrev_none (links : Links κ) (target : Option κ) :
    links.setPrev none target = links :=
  funext fun _ => Links.setPrev_other (Option.some_ne_none _).symm

/-- The last thing of a chain is linked to something else. -/
theorem Chained.setNext (h : Chained links prev list next) (hnodup : list.Nodup)
    (target : Option κ) : Chained (links.setNext list.getLast? target) prev list target := by
  rcases List.eq_nil_or_concat list with rfl | ⟨front, a, rfl⟩
  · trivial
  · rw [List.concat_eq_append] at h hnodup ⊢
    rw [List.getLast?_concat]
    obtain ⟨hfront, hlast, -⟩ := chained_append.mp h
    refine chained_append.mpr ⟨hfront.congr fun b hb => Links.setNext_other ?_, ?_, trivial⟩
    · rintro ⟨⟩
      exact (List.nodup_append.mp hnodup).2.2 a hb a List.mem_cons_self rfl
    · rw [Links.setNext, if_pos rfl, hlast]
      rfl

/-- The first thing of a chain is linked to something else. -/
theorem Chained.setPrev (h : Chained links prev list next) (hnodup : list.Nodup)
    (target : Option κ) : Chained (links.setPrev list.head? target) target list next := by
  cases list with
  | nil => trivial
  | cons a list =>
      refine ⟨?_, h.2.congr fun b hb => Links.setPrev_other ?_⟩
      · rw [Links.setPrev, List.head?_cons, if_pos rfl, h.1]
        rfl
      · rintro ⟨⟩
        exact (List.nodup_cons.mp hnodup).1 hb

/-- Two chains are cut off from what was between them, and linked to something else
    there. -/
theorem Chained.relink {first last : Option κ} (hfront : Chained links first front next)
    (hback : Chained links prev back last) (hnodup : (front ++ back).Nodup)
    (target target' : Option κ) :
    let relinked := (links.setNext front.getLast? target).setPrev back.head? target'
    Chained relinked first front target ∧ Chained relinked target' back last := by
  intro relinked
  obtain ⟨hfront', hback', hdisjoint⟩ := List.nodup_append.mp hnodup
  constructor
  · refine (hfront.setNext hfront' target).congr fun a ha => Links.setPrev_other ?_
    exact head?_ne_some fun hmem => hdisjoint a ha a hmem rfl
  · refine Chained.setPrev (hback.congr fun a ha => Links.setNext_other ?_) hback' target'
    exact getLast?_ne_some fun hmem => hdisjoint a hmem a ha rfl

end

end DecafBackend
