import MiniRisc.Machine.Basic
/-! Steps that fail before they change anything. Every operation looks at all that it needs before
its first write, so a machine whose instruction fails is as it was. -/
namespace MiniRisc
namespace Effect
variable {α β : Type}

def Reads (x : Effect α) : Prop :=
  ∀ s, (∃ a, x.run s = .ok a s) ∨ ∃ trouble, x.run s = .error trouble s

def Succeeds (x : Effect α) : Prop := ∀ s, ∃ a s', x.run s = .ok a s'

/-- Steps that leave the state as it was if they fail. -/
def Atomic (x : Effect α) : Prop := ∀ s trouble s', x.run s = .error trouble s' → s' = s

private theorem Reads.atomic {x : Effect α} (h : Reads x) : Atomic x := by
  intro s trouble s' hx
  rcases h s with ⟨a, hs⟩ | ⟨t, hs⟩
  · rw [hs] at hx
    cases hx
  · rw [hs] at hx
    cases hx
    rfl

private theorem Succeeds.atomic {x : Effect α} (h : Succeeds x) : Atomic x := by
  intro s trouble s' hx
  obtain ⟨a, u, hs⟩ := h s
  rw [hs] at hx
  cases hx

theorem Reads.bind {x : Effect α} {f : α → Effect β} (hx : Reads x) (hf : ∀ a, Reads (f a)) :
    Reads (x >>= f) := by
  intro s
  rw [EStateM.run_bind]
  rcases hx s with ⟨a, hs⟩ | ⟨t, hs⟩
  · rw [hs]
    exact hf a s
  · rw [hs]
    exact .inr ⟨t, rfl⟩

theorem Succeeds.bind {x : Effect α} {f : α → Effect β} (hx : Succeeds x)
    (hf : ∀ a, Succeeds (f a)) : Succeeds (x >>= f) := by
  intro s
  obtain ⟨a, u, hs⟩ := hx s
  rw [EStateM.run_bind, hs]
  exact hf a u

/-- What only reads may stand before steps that are atomic. -/
theorem Reads.bind_atomic {x : Effect α} {f : α → Effect β} (hx : Reads x)
    (hf : ∀ a, Atomic (f a)) : Atomic (x >>= f) := by
  intro s trouble s' h
  rw [EStateM.run_bind] at h
  rcases hx s with ⟨a, hs⟩ | ⟨t, hs⟩
  · rw [hs] at h
    exact hf a s trouble s' h
  · rw [hs] at h
    cases h
    rfl

/-- What does not fail may stand behind steps that are atomic. -/
theorem Atomic.bind_succeeds {x : Effect α} {f : α → Effect β} (hx : Atomic x)
    (hf : ∀ a, Succeeds (f a)) : Atomic (x >>= f) := by
  intro s trouble s' h
  rw [EStateM.run_bind] at h
  cases hs : x.run s with
  | ok a u =>
    obtain ⟨b, v, hb⟩ := hf a u
    rw [hs] at h
    simp only [hb] at h
    cases h
  | error t u =>
    rw [hs] at h
    cases h
    exact hx s trouble s' hs

private theorem reads_pure (a : α) : Reads (pure a) := fun _ => .inl ⟨a, rfl⟩

private theorem reads_get : Reads get := fun s => .inl ⟨s, rfl⟩

private theorem reads_throw (trouble : Trouble) : Reads (throw trouble : Effect α) :=
  fun _ => .inr ⟨trouble, rfl⟩

private theorem succeeds_pure (a : α) : Succeeds (pure a) := fun s => ⟨a, s, rfl⟩

private theorem succeeds_modify (f : State → State) : Succeeds (modify f) := fun s => ⟨(), f s, rfl⟩

private theorem reads_operand (x : Except Defect α) : Reads (operand x) := by
  cases x with
  | ok a => exact reads_pure a
  | error d => exact reads_throw _

private theorem reads_access (x : Except Fault.Cause α) : Reads (access x) := by
  cases x with
  | ok a => exact reads_pure a
  | error cause => exact reads_throw _

private theorem reads_read (number : Int) : Reads (read number) :=
  reads_get.bind fun _ => reads_operand _

private theorem atomic_write (number value : Int) : Atomic (write number value) :=
  reads_get.bind_atomic fun _ =>
    (reads_operand _).bind_atomic fun _ => (succeeds_modify _).atomic

private theorem reads_source (o : Operation) : Reads (source o) := by
  rw [source]
  split
  · exact reads_pure _
  · exact reads_read _
  · exact reads_throw _

private theorem reads_address (o : Operation) : Reads (address o) := by
  refine (reads_read _).bind fun base => ?_
  split
  · exact reads_pure _
  · exact reads_throw _

private theorem atomic_compute (o : Operation) (f : Int → Int → Option Int) :
    Atomic (compute o f) := by
  refine (reads_read _).bind_atomic fun a => (reads_source o).bind_atomic fun b => ?_
  split
  · exact atomic_write _ _
  · exact (reads_throw _).atomic

private theorem atomic_compare (o : Operation) : Atomic (compare o) :=
  (reads_read _).bind_atomic fun _ =>
    (reads_source o).bind_atomic fun _ => (succeeds_modify _).atomic

private theorem atomic_load (o : Operation) : Atomic (load o) :=
  (reads_address o).bind_atomic fun _ => reads_get.bind_atomic fun _ =>
    (reads_access _).bind_atomic fun _ => atomic_write _ _

private theorem atomic_store (o : Operation) : Atomic (store o) :=
  (reads_address o).bind_atomic fun _ => (reads_read _).bind_atomic fun _ =>
    reads_get.bind_atomic fun _ => (reads_access _).bind_atomic fun _ =>
      (succeeds_modify _).atomic

private theorem atomic_serve (policy : ServicePolicy) : Atomic (serve policy) := by
  refine reads_get.bind_atomic fun s => ?_
  split
  · exact (reads_throw _).atomic
  · exact ((succeeds_modify _).bind fun _ => succeeds_modify _).atomic

private theorem atomic_stay {x : Effect Unit} (h : Atomic x) : Atomic (perform.stay x) :=
  h.bind_succeeds fun _ => succeeds_pure none

private theorem atomic_perform (policy : ServicePolicy) (o : Operation) :
    Atomic (perform policy o) := by
  rw [perform]
  cases o.op with
  | add | sub | mul | div | mod | and | or | lsl | lsr | asr =>
    exact atomic_stay (atomic_compute o _)
  | cmp => exact atomic_stay (atomic_compare o)
  | not | mov => exact atomic_stay ((reads_source o).bind_atomic fun _ => atomic_write _ _)
  | ld => exact atomic_stay (atomic_load o)
  | st => exact atomic_stay (atomic_store o)
  | b | nop => exact (reads_pure _).atomic
  | beq | bgt | ret => exact (reads_get.bind fun _ => reads_pure _).atomic
  | call => exact ((succeeds_modify _).bind fun _ => succeeds_pure _).atomic
  | sys => exact atomic_stay (atomic_serve policy)

theorem atomic_execute (policy : ServicePolicy) (o : Operation) : Atomic (execute policy o) :=
  reads_get.bind_atomic fun _ => (atomic_perform policy o).bind_succeeds fun _ => succeeds_modify _

end Effect
end MiniRisc
