import Statechart.Chart.View

namespace Statechart.Chart

def Inherits (c : Chart) (state super : Name) : Prop :=
  ∃ b ∈ c.blocks, b.head.name = state ∧ super ∈ b.head.supers

def Reacts (c : Chart) (state event : Name) (a : Arrow) : Prop :=
  ∃ b ∈ c.blocks, b.head.name = state ∧ a ∈ b.arrows ∧ a.event = some event

inductive Used (c : Chart) (n : Name) : Prop
  | initial : h ∈ c.headers → h.role? = some .initial → h.value = n → Used c n
  | super : c.Inherits state n → Used c n
  | next : b ∈ c.blocks → a ∈ b.arrows → a.target b.head.name = n → Used c n

structure WellFormed (c : Chart) : Prop where
  roles : ∀ h ∈ c.headers, h.role?.isSome
  roles_nodup : (c.headers.map Header.role?).Nodup
  fsm : ∃ h ∈ c.headers, h.role? = some .fsm
  initial : ∃ h ∈ c.headers, h.role? = some .initial
  initial_defined : ∀ h ∈ c.headers, h.role? = some .initial → h.value ∈ c.subjects
  supers_defined : c.Inherits state super → super ∈ c.subjects
  next_defined : b ∈ c.blocks → a ∈ b.arrows → a.next = some n → n ∈ c.subjects
  next_concrete : b ∈ c.blocks → a ∈ b.arrows → a.next = some n →
    b' ∈ c.blocks → b'.head.name = n → ¬b'.head.isAbstract
  used : n ∈ c.subjects → c.Used n
  deterministic : c.reactions.Nodup
  actions_agree : b₁ ∈ c.blocks → b₂ ∈ c.blocks → b₁.head.name = b₂.head.name →
    b₁.head.hasActions → b₂.head.hasActions →
    b₁.head.entry = b₂.head.entry ∧ b₁.head.exit = b₂.head.exit
  supers_agree : c.Inherits state s₁ → c.Inherits state s₂ → s₁ ≠ s₂ →
    c.Reacts s₁ e a₁ → c.Reacts s₂ e a₂ → (∀ a, ¬c.Reacts state e a) →
    a₁.target s₁ = a₂.target s₂ ∧ a₁.actions = a₂.actions

end Statechart.Chart
