import Mathlib.Data.List.Infix
import Mathlib.Data.List.Induction

namespace Johnny
namespace Library

/-!
# Leases

Resources are taken, used and given back, and the same resource may be taken
again later.  A log of events obeys the leases if nothing is used between being
given back and being taken again.

The log is compared with the set of resources that are held: if only held
resources are used, the events keep the set in step with the log, and then the
log obeys the leases.
-/

universe u v

/-- What the events of a log do to the resources. -/
structure Leasing (Event : Type u) (Resource : Type v) where
  takes : Event -> Resource -> Prop
  uses : Event -> Resource -> Prop
  givesBack : Event -> Resource -> Prop

namespace Leasing

variable {Event : Type u} {Resource : Type v} (L : Leasing Event Resource)

/-- Between an event that gives a resource back and a later one that uses it,
the resource was taken again. -/
def Obeyed (log : List Event) : Prop :=
  forall before between after returning user resource,
    log = before ++ returning :: (between ++ user :: after) -> L.givesBack returning resource ->
      L.uses user resource -> Exists fun taking => taking ∈ between ∧ L.takes taking resource

/-- Given back and not taken since. -/
def Returned (log : List Event) (resource : Resource) : Prop :=
  Exists fun before => Exists fun returning => Exists fun since =>
    log = before ++ returning :: since ∧ L.givesBack returning resource ∧
      forall taking, taking ∈ since -> ¬ L.takes taking resource

/-- The held resources are in step with the log. -/
structure Current (held : Resource -> Prop) (log : List Event) : Prop where
  obeyed : L.Obeyed log
  returned : forall resource, L.Returned log resource -> ¬ held resource

variable {L}

theorem Current.nil (held : Resource -> Prop) : L.Current held [] where
  obeyed := by
    intro before between after returning user resource equal
    simp at equal
  returned := by
    rintro resource ⟨before, returning, since, equal, -⟩
    simp at equal

theorem returned_append_singleton {log : List Event} {event : Event} {resource : Resource}
    (returned : L.Returned (log ++ [event]) resource) :
    L.givesBack event resource ∨ (L.Returned log resource ∧ ¬ L.takes event resource) := by
  rcases returned with ⟨before, returning, since, equal, givesBack, untaken⟩
  rcases List.eq_nil_or_concat' since with rfl | ⟨since, last, rfl⟩
  · rcases List.append_inj' equal rfl with ⟨-, last⟩
    rw [(List.cons.inj last).1]
    exact Or.inl givesBack
  · rw [← List.cons_append, ← List.append_assoc] at equal
    rcases List.append_inj' equal rfl with ⟨earlier, same⟩
    rw [(List.cons.inj same).1]
    refine Or.inr ⟨⟨before, returning, since, earlier, givesBack, ?_⟩, ?_⟩
    · exact fun taking member => untaken taking (List.mem_append_left _ member)
    · exact untaken last (List.mem_append_right _ (List.mem_singleton_self last))

theorem Obeyed.append_singleton {log : List Event} (obeyed : L.Obeyed log) {event : Event}
    (unreturned : forall resource, L.uses event resource -> ¬ L.Returned log resource) :
    L.Obeyed (log ++ [event]) := by
  intro before between after returning user resource equal givesBack uses
  rcases List.eq_nil_or_concat' after with rfl | ⟨after, last, rfl⟩
  · rw [← List.cons_append, ← List.append_assoc] at equal
    rcases List.append_inj' equal rfl with ⟨earlier, last⟩
    rw [← (List.cons.inj last).1] at uses
    by_contra untaken
    apply unreturned resource uses
    refine ⟨before, returning, between, earlier, givesBack, ?_⟩
    intro taking member takes
    exact untaken ⟨taking, member, takes⟩
  · have split : before ++ returning :: (between ++ user :: (after ++ [last])) =
        (before ++ returning :: (between ++ user :: after)) ++ [last] := by
      simp only [List.append_assoc, List.cons_append]
    rw [split] at equal
    exact obeyed before between after returning user resource
      (List.append_inj' equal rfl).1 givesBack uses

/-- One more event: it uses what is held, and the held resources change only by
what it takes and gives back. -/
theorem Current.append_singleton {held next : Resource -> Prop} {log : List Event}
    (current : L.Current held log) {event : Event}
    (uses : forall resource, L.uses event resource -> held resource)
    (keeps : forall resource, next resource -> held resource ∨ L.takes event resource)
    (givesBack : forall resource, L.givesBack event resource -> ¬ next resource) :
    L.Current next (log ++ [event]) where
  obeyed := current.obeyed.append_singleton
    (fun resource used returned => current.returned resource returned (uses resource used))
  returned := by
    intro resource returned isHeld
    rcases returned_append_singleton returned with now | ⟨earlier, untaken⟩
    · exact givesBack resource now isHeld
    · rcases keeps resource isHeld with before | taken
      · exact current.returned resource earlier before
      · exact untaken taken

theorem Current.congr {held next : Resource -> Prop} {log : List Event}
    (current : L.Current held log)
    (keeps : forall resource, next resource -> held resource) : L.Current next log :=
  ⟨current.obeyed, fun resource returned isHeld =>
    current.returned resource returned (keeps resource isHeld)⟩

end Leasing

end Library
end Johnny
