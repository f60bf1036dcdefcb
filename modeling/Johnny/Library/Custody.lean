import Johnny.Library.Refinement
import Mathlib.Data.Set.Insert

namespace Johnny
namespace Library

/-!
# Custody

Several holders take resources, use them and give them back.  A holder uses and
gives back what it holds, and takes what nobody holds.  Then no resource is held
twice, and what one holder has given back, or another one has taken, a holder
uses only after taking it again.

A program keeps to this if what each of its steps deals with is a run here, from
what was held before the step to what is held after it.
-/

universe u v

inductive Act
  | takes
  | uses
  | givesBack
  deriving DecidableEq

structure Dealing (Resource : Type u) where
  act : Act
  resource : Resource

variable {Resource : Type u}

/-- One holder: the state is what it holds. -/
def custody (Resource : Type u) : Machine (Set Resource) (Dealing Resource) where
  enabled := fun held dealing => dealing.act = .takes ∨ dealing.resource ∈ held
  step := fun held dealing =>
    match dealing.act with
    | .takes => insert dealing.resource held
    | .uses => held
    | .givesBack => held \ {dealing.resource}

def custodyLeases (Resource : Type u) : Leasing (Dealing Resource) Resource where
  takes := fun dealing resource => dealing = ⟨.takes, resource⟩
  uses := fun dealing resource => dealing = ⟨.uses, resource⟩ ∨ dealing = ⟨.givesBack, resource⟩
  givesBack := fun dealing resource => dealing = ⟨.givesBack, resource⟩

theorem custody_keeps {held : Set Resource} {dealing : Dealing Resource}
    (enabled : (custody Resource).enabled held dealing) :
    (custodyLeases Resource).Keeps (fun resource => resource ∈ held) dealing
      (fun resource => resource ∈ (custody Resource).step held dealing) where
  uses := by
    rintro resource (rfl | rfl)
    · exact enabled.resolve_left (fun impossible => by cases impossible)
    · exact enabled.resolve_left (fun impossible => by cases impossible)
  keeps := by
    rcases dealing with ⟨act, own⟩
    intro resource member
    cases act with
    | takes => exact (Set.mem_insert_iff.mp member).symm.imp_right (fun same => by rw [same]; rfl)
    | uses => exact Or.inl member
    | givesBack => exact Or.inl member.1
  givesBack := by
    rintro resource rfl member
    exact member.2 rfl

/-- Each of the resources is used. -/
def usesOf (resources : List Resource) : List (Dealing Resource) :=
  resources.map (Dealing.mk .uses)

theorem custody_after_usesOf (held : Set Resource) (resources : List Resource) :
    (custody Resource).after held (usesOf resources) = held := by
  induction resources with
  | nil => rfl
  | cons resource rest ih => exact ih

theorem custody_run_usesOf {held : Set Resource} {resources : List Resource}
    (member : forall resource, resource ∈ resources -> resource ∈ held) :
    (custody Resource).Run held (usesOf resources) := by
  induction resources with
  | nil => exact trivial
  | cons resource rest ih =>
      exact ⟨Or.inr (member resource List.mem_cons_self),
        ih (fun other inRest => member other (List.mem_cons_of_mem _ inRest))⟩

def takesOf (resources : List Resource) : List (Dealing Resource) :=
  resources.map (Dealing.mk .takes)

theorem custody_after_takesOf (held : Set Resource) (resources : List Resource) :
    (custody Resource).after held (takesOf resources) =
    {resource | resource ∈ resources} ∪ held := by
  induction resources generalizing held with
  | nil =>
      ext other
      exact (or_iff_right List.not_mem_nil).symm
  | cons resource rest ih =>
      refine (ih (insert resource held)).trans ?_
      ext other
      simp only [Set.mem_union, Set.mem_ofPred_eq, Set.mem_insert_iff, List.mem_cons]
      exact or_left_comm.trans or_assoc.symm

theorem custody_run_takesOf (held : Set Resource) (resources : List Resource) :
    (custody Resource).Run held (takesOf resources) := by
  induction resources generalizing held with
  | nil => exact trivial
  | cons resource rest ih => exact ⟨Or.inl rfl, ih _⟩

def givesBackOf (resources : List Resource) : List (Dealing Resource) :=
  resources.map (Dealing.mk .givesBack)

theorem custody_after_givesBackOf (held : Set Resource) (resources : List Resource) :
    (custody Resource).after held (givesBackOf resources) = held \
    {resource | resource ∈ resources} := by
  induction resources generalizing held with
  | nil =>
      ext other
      exact (and_iff_left List.not_mem_nil).symm
  | cons resource rest ih =>
      refine (ih (held \ {resource})).trans ?_
      ext other
      simp only [Set.mem_sdiff, Set.mem_ofPred_eq, Set.mem_singleton_iff, List.mem_cons, not_or,
        and_assoc]

theorem custody_run_givesBackOf {held : Set Resource} {resources : List Resource}
    (once : resources.Nodup) (member : forall resource, resource ∈ resources -> resource ∈ held) :
    (custody Resource).Run held (givesBackOf resources) := by
  induction resources generalizing held with
  | nil => exact trivial
  | cons resource rest ih =>
      rcases List.nodup_cons.mp once with ⟨alone, onceRest⟩
      refine ⟨Or.inr (member resource List.mem_cons_self), ih onceRest ?_⟩
      intro other inRest
      refine ⟨member other (List.mem_cons_of_mem _ inRest), ?_⟩
      rintro rfl
      exact alone inRest

/-! ## Several holders -/

/-- The log of the labels themselves. -/
theorem Machine.log_self {State Label : Type*} (M : Machine State Label) (state : State)
    (labels : List Label) : M.log (fun _ label => [label]) state labels = labels := by
  induction labels generalizing state with
  | nil => rfl
  | cons label rest ih => exact congrArg (List.cons label) (ih _)

variable {Holder : Type v}

/-- Nobody holds what is taken. -/
def Unheld (held : Holder -> Set Resource) (_ : Holder) (dealing : Dealing Resource) : Prop :=
  dealing.act = .takes -> forall holder, dealing.resource ∉ held holder

def HeldOnce (held : Holder -> Set Resource) : Prop :=
  Exclusive (fun own : Set Resource => fun resource => resource ∈ own) held

variable [DecidableEq Holder]

theorem HeldOnce.step {held : Holder -> Set Resource} (once : HeldOnce held) {holder : Holder}
    {dealing : Dealing Resource} (unheld : Unheld held holder dealing) :
    HeldOnce (Function.update held holder ((custody Resource).step (held holder) dealing)) := by
  rcases dealing with ⟨act, own⟩
  apply Exclusive.update once
  intro resource member
  cases act with
  | takes =>
      rcases Set.mem_insert_iff.mp member with rfl | before
      · exact Or.inr (fun other _ => unheld rfl other)
      · exact Or.inl before
  | uses => exact Or.inl member
  | givesBack => exact Or.inl member.1

/-- Only taking needs that nobody holds. -/
theorem unheld_of_act {act : Act} (other : act ≠ .takes) (resources : List Resource)
    (held : Holder -> Set Resource) (holder : Holder) :
    ((custody Resource).interleaved Unheld).Throughout (fun held step => Unheld held step.1 step.2)
      held ((resources.map (Dealing.mk act)).map (Prod.mk holder)) := by
  induction resources generalizing held with
  | nil => exact trivial
  | cons resource rest ih => exact ⟨fun takes => absurd takes other, ih _⟩

/-- In every run nothing is held twice, and the leases are obeyed. -/
theorem custody_obeyed {steps : List (Holder × Dealing Resource)}
    (run : ((custody Resource).interleaved Unheld).Run (fun _ => ∅) steps) :
    HeldOnce (((custody Resource).interleaved Unheld).after (fun _ => ∅) steps) ∧
      ((custodyLeases Resource).shared Holder).Obeyed steps := by
  have logged := @Machine.log_of_throughout _ _ ((custody Resource).interleaved Unheld) _
    (fun _ step => [step]) (fun log (held : Holder -> Set Resource) => HeldOnce held ∧
      ((custodyLeases Resource).shared Holder).Current (fun lease => lease.2 ∈ held lease.1) log)
    ((custody Resource).interleaved Unheld).enabled ?_ [] (fun _ => ∅) steps
    ⟨fun _ _ _ _ member => absurd member (Set.notMem_empty _), Leasing.Current.nil _⟩ run
  · rw [List.nil_append, Machine.log_self] at logged
    exact ⟨logged.1, logged.2.obeyed⟩
  · rintro log held ⟨holder, dealing⟩ ⟨once, current⟩ ⟨enabled, unheld⟩
    have after := once.step unheld
    refine ⟨after, Leasing.Keeps.current ?_ current⟩
    refine @Leasing.Keeps.shared _ _ _ _ _ _ (fun own resource => resource ∈ own) held holder _ _
      (custody_keeps enabled) once after ?_ ?_
    · exact fun resource givesBack => Or.inr givesBack
    · rintro resource rfl
      exact Set.mem_insert _ _

end Library
end Johnny
