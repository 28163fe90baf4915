import Mathlib.Data.List.AList
import Mathlib.Data.List.ReduceOption
import Senko.Core.Utf8

/-!
# Senko — the expiry wheels (`senko-store/src/expiry.rs`)

A wheel has 512 slots of 100 ms and a map of the deadlines beyond its span. Time moves in ticks:
each tick empties the slot of the new tick and, at the last slot of a rotation, moves the deadlines
that have come into reach from the map to their slots.

The wheel of the keys and the wheel of the hash fields differ only in what they hold, so they are
one definition over the type of the item. `Due` says at which tick an item is going to be handed
out; a tick hands out the items due at it and keeps every other item due when it was.
-/

namespace Senko

open List Function

open Std (TreeMap)

def wheelSlots : Nat := 512
def wheelResolutionMs : Nat := 100
def wheelSpanMs : Nat := wheelSlots * wheelResolutionMs

def alignTick (ms : Nat) : Nat := ms - ms % wheelResolutionMs

def slotIndex (deadlineMs : Nat) : Nat := alignTick deadlineMs / wheelResolutionMs % wheelSlots

/-- A deadline that has passed is scheduled for the next tick. -/
def normalizeDeadline (deadlineMs currentTick : Nat) : Nat :=
  if deadlineMs ≤ currentTick then saturatingAdd currentTick wheelResolutionMs else deadlineMs

/-- A slot or an overflow vector; a tombstone is `none`. -/
abbrev WheelEntries (α : Type) := List (Option α)

/-- `TimerWheel` and `FieldExpiryWheel`. -/
structure Wheel (α : Type) where
  slots : Nat → WheelEntries α := fun _ => []
  overflow : TreeMap Nat (WheelEntries α) := ∅
  lastTickMs : Nat

namespace Wheel

variable {α : Type}

def new (nowMs : Nat) : Wheel α where
  lastTickMs := alignTick nowMs

def pushSlot (slots : Nat → WheelEntries α) (i : Nat) (entries : WheelEntries α) :
    Nat → WheelEntries α :=
  Function.update slots i (slots i ++ entries)

def schedule (w : Wheel α) (item : α) (expiresAt : Nat) : Wheel α :=
  let currentTick := alignTick w.lastTickMs
  let scheduledAt := normalizeDeadline expiresAt currentTick
  if scheduledAt ≤ saturatingAdd currentTick wheelSpanMs then
    { w with slots := pushSlot w.slots (slotIndex scheduledAt) [some item] }
  else
    let push (entries : Option (WheelEntries α)) := some (entries.getD [] ++ [some item])
    { w with overflow := w.overflow.alter (alignTick scheduledAt) push }

/-- Replace the items that match by tombstones. -/
def tombstoneEntries (isMatch : α → Bool) (entries : WheelEntries α) : WheelEntries α :=
  entries.map (Option.filter fun item => !isMatch item)

def tombstone (w : Wheel α) (isMatch : α → Bool) : Option Nat → Wheel α
  | none => w
  | some deadline =>
    let aligned := alignTick deadline
    if aligned ≤ saturatingAdd w.lastTickMs wheelSpanMs then
      let entries := tombstoneEntries isMatch (w.slots (slotIndex aligned))
      { w with slots := Function.update w.slots (slotIndex aligned) entries }
    else
      match w.overflow[aligned]? with
      | none => w
      | some entries =>
        let entries := tombstoneEntries isMatch entries
        if entries.all Option.isNone then { w with overflow := w.overflow.erase aligned }
        else { w with overflow := w.overflow.insert aligned entries }

/-- `tombstone_key` of the field wheel: every slot and every overflow vector. -/
def tombstoneAll (w : Wheel α) (isMatch : α → Bool) : Wheel α :=
  { w with
    slots := fun i => tombstoneEntries isMatch (w.slots i)
    overflow := (w.overflow.map fun _ entries => tombstoneEntries isMatch entries).filter
      fun _ entries => !entries.all Option.isNone }

/-- The deadlines up to one span ahead leave the overflow map for their slots. -/
def promoteOverflow (w : Wheel α) : Wheel α :=
  let promoteUntil := saturatingAdd w.lastTickMs wheelSpanMs
  { w with
    slots := (w.overflow.toList.filter fun entry => entry.1 ≤ promoteUntil).foldl
      (fun slots entry => pushSlot slots (slotIndex entry.1) entry.2) w.slots
    overflow := w.overflow.filter fun deadline _ => !(deadline ≤ promoteUntil) }

/-- One round of the loop of `advance`: the wheel and the items of the slot it drained. -/
def tick (w : Wheel α) : Wheel α × List α :=
  let lastTickMs := saturatingAdd w.lastTickMs wheelResolutionMs
  let slot := slotIndex lastTickMs
  let drained := { w with lastTickMs, slots := Function.update w.slots slot [] }
  (if slot = wheelSlots - 1 then drained.promoteOverflow else drained,
    (w.slots slot).reduceOption)

/-- The loop of `advance`, with the rounds it may still take. -/
def advanceLoop (target : Nat) : Nat → Wheel α → List α → Wheel α × List α
  | 0, w, expired => (w, expired)
  | rounds + 1, w, expired =>
    if w.lastTickMs < target then
      advanceLoop target rounds w.tick.1 (expired ++ w.tick.2)
    else (w, expired)

/-- Every round is a tick nearer to the target, so the distance is enough rounds. -/
def advance (w : Wheel α) (nowMs : Nat) : Wheel α × List α :=
  let target := alignTick nowMs
  advanceLoop target (target - w.lastTickMs) w []

/-! ## When an item is handed out -/

/-- The next tick at the last slot of a rotation. -/
def nextRotation (tickMs : Nat) : Nat :=
  ((tickMs / wheelResolutionMs + 1) / wheelSlots * wheelSlots + (wheelSlots - 1)) *
    wheelResolutionMs

def InOverflow (w : Wheel α) (deadline : Nat) (item : α) : Prop :=
  ∃ entries, w.overflow[deadline]? = some entries ∧ some item ∈ entries

/-- **The item is handed out at a tick**: it waits in the slot of the tick within the current
rotation, or in the overflow map for a tick after the next promotion. -/
structure Due (w : Wheel α) (item : α) (tickMs : Nat) : Prop where
  ahead : w.lastTickMs < tickMs
  aligned : tickMs % wheelResolutionMs = 0
  bounded : tickMs ≤ u64Max
  placed : tickMs ≤ w.lastTickMs + wheelSpanMs ∧ some item ∈ w.slots (slotIndex tickMs) ∨
    nextRotation w.lastTickMs < tickMs ∧ w.InOverflow tickMs item

variable {w w' : Wheel α} {item other : α} {tickMs : Nat} {isMatch : α → Bool}

/-- A wheel that has lost nothing of the item hands it out as before. -/
theorem Due.of_subset (h : w.Due item tickMs) (hlast : w'.lastTickMs = w.lastTickMs)
    (hslots : ∀ i, some item ∈ w.slots i → some item ∈ w'.slots i)
    (hoverflow : ∀ d, w.InOverflow d item → w'.InOverflow d item) : w'.Due item tickMs where
  ahead := hlast ▸ h.ahead
  aligned := h.aligned
  bounded := h.bounded
  placed := by
    rw [hlast]
    exact h.placed.imp (And.imp_right (hslots _)) (And.imp_right (hoverflow _))

theorem mem_pushSlot {slots : Nat → WheelEntries α} {i j : Nat} {entries : WheelEntries α} :
    some item ∈ pushSlot slots i entries j ↔ some item ∈ slots j ∨ j = i ∧ some item ∈ entries := by
  unfold pushSlot
  by_cases hji : j = i
  · subst hji
    simp
  · simp [hji]

theorem mem_tombstoneEntries {entries : WheelEntries α} :
    some item ∈ tombstoneEntries isMatch entries ↔ some item ∈ entries ∧ isMatch item = false := by
  simp [tombstoneEntries]

/-! ### Scheduling and tombstones -/

@[simp] theorem lastTickMs_schedule (deadline : Nat) :
    (w.schedule other deadline).lastTickMs = w.lastTickMs := by
  unfold schedule
  dsimp only
  split <;> rfl

/-- Scheduling an item leaves the others where they are. -/
theorem Due.schedule (h : w.Due item tickMs) (other : α) (deadline : Nat) :
    (w.schedule other deadline).Due item tickMs := by
  unfold Wheel.schedule
  dsimp only
  split
  · exact h.of_subset rfl (fun i hi => mem_pushSlot.2 (.inl hi)) fun _ hd => hd
  refine h.of_subset rfl (fun _ hi => hi) ?_
  rintro d ⟨entries, hentries, hmem⟩
  unfold InOverflow
  rw [TreeMap.getElem?_alter]
  split
  · rename_i hcmp
    have hd : _ = d := Nat.compare_eq_eq.1 hcmp
    rw [hd, hentries]
    exact ⟨_, rfl, mem_append_left _ hmem⟩
  · exact ⟨entries, hentries, hmem⟩

@[simp] theorem lastTickMs_tombstone (deadline : Option Nat) :
    (w.tombstone isMatch deadline).lastTickMs = w.lastTickMs := by
  unfold tombstone
  rcases deadline with _ | deadline
  · rfl
  dsimp only
  split
  · rfl
  · split
    · rfl
    · split <;> rfl

/-- A tombstone leaves the items that do not match. -/
theorem Due.tombstone (h : w.Due item tickMs) (hitem : isMatch item = false)
    (deadline : Option Nat) : (w.tombstone isMatch deadline).Due item tickMs := by
  unfold Wheel.tombstone
  rcases deadline with _ | deadline
  · exact h
  dsimp only
  split
  · refine h.of_subset rfl (fun i hi => ?_) fun _ hd => hd
    dsimp only
    by_cases hslot : i = slotIndex (alignTick deadline)
    · rw [hslot, update_self]
      exact mem_tombstoneEntries.2 ⟨hslot ▸ hi, hitem⟩
    · rwa [update_of_ne hslot]
  rcases hfound : w.overflow[alignTick deadline]? with _ | found
  · exact h
  dsimp only
  -- the vector of the deadline keeps the item, so it is not dropped
  have hkept : some item ∈ found → some item ∈ tombstoneEntries isMatch found := fun hmem =>
    mem_tombstoneEntries.2 ⟨hmem, hitem⟩
  split
  · rename_i hempty
    refine h.of_subset rfl (fun _ hi => hi) ?_
    rintro d ⟨entries, hentries, hmem⟩
    refine ⟨entries, ?_, hmem⟩
    rw [TreeMap.getElem?_erase, if_neg, hentries]
    intro hcmp
    rw [← Nat.compare_eq_eq.1 hcmp, hfound] at hentries
    cases hentries
    simpa using all_eq_true.1 hempty _ (hkept hmem)
  refine h.of_subset rfl (fun _ hi => hi) ?_
  rintro d ⟨entries, hentries, hmem⟩
  unfold InOverflow
  rw [TreeMap.getElem?_insert]
  split
  · rename_i hcmp
    rw [← Nat.compare_eq_eq.1 hcmp, hfound] at hentries
    cases hentries
    exact ⟨_, rfl, hkept hmem⟩
  · exact ⟨entries, hentries, hmem⟩

/-- A deadline the wheel can keep from a tick on: it has passed, or it lies in a later tick, which
is not the one at which the next promotion comes too late. -/
def Timely (tickMs deadline : Nat) : Prop :=
  deadline ≤ tickMs ∨
    tickMs < alignTick deadline ∧
      (deadline ≤ tickMs + wheelSpanMs ∨ nextRotation tickMs < alignTick deadline)
deriving Decidable

/-- The tick at which an item scheduled now is handed out. -/
def dueTick (tickMs deadline : Nat) : Nat :=
  if deadline ≤ tickMs then tickMs + wheelResolutionMs else alignTick deadline

theorem alignTick_of_aligned (h : tickMs % wheelResolutionMs = 0) : alignTick tickMs = tickMs := by
  rw [alignTick, h, Nat.sub_zero]

theorem alignTick_mod (ms : Nat) : alignTick ms % wheelResolutionMs = 0 := by
  unfold alignTick wheelResolutionMs
  omega

theorem alignTick_le (ms : Nat) : alignTick ms ≤ ms := Nat.sub_le _ _

theorem slotIndex_alignTick (ms : Nat) : slotIndex (alignTick ms) = slotIndex ms := by
  rw [slotIndex, alignTick_of_aligned (alignTick_mod ms), slotIndex]

/-- **A timely deadline is kept**: the item is handed out at the tick of its deadline. -/
theorem due_schedule (haligned : w.lastTickMs % wheelResolutionMs = 0) {deadline : Nat}
    (hbound : deadline ≤ u64Max) (hdue : dueTick w.lastTickMs deadline ≤ u64Max)
    (htimely : Timely w.lastTickMs deadline) :
    (w.schedule item deadline).Due item (dueTick w.lastTickMs deadline) := by
  have hcurrent := alignTick_of_aligned haligned
  unfold Wheel.schedule
  simp only [hcurrent]
  by_cases hpast : deadline ≤ w.lastTickMs
  · have hdueTick : dueTick w.lastTickMs deadline = w.lastTickMs + wheelResolutionMs := if_pos hpast
    have hat : normalizeDeadline deadline w.lastTickMs = w.lastTickMs + wheelResolutionMs := by
      rw [normalizeDeadline, if_pos hpast, saturatingAdd, Nat.min_eq_left (hdueTick ▸ hdue)]
    rw [hat, hdueTick, if_pos]
    · rw [hdueTick] at hdue
      refine ⟨by simp [wheelResolutionMs], by simpa using haligned, hdue, Or.inl ⟨?_, ?_⟩⟩
      · simp [wheelSpanMs, wheelResolutionMs, wheelSlots]
      · exact mem_pushSlot.2 (.inr ⟨rfl, mem_singleton_self _⟩)
    · rw [saturatingAdd, Nat.le_min]
      exact ⟨by simp [wheelSpanMs, wheelResolutionMs, wheelSlots], hdueTick ▸ hdue⟩
  obtain ⟨hahead, hplace⟩ := htimely.resolve_left hpast
  have hdueTick : dueTick w.lastTickMs deadline = alignTick deadline := if_neg hpast
  rw [normalizeDeadline, if_neg hpast, hdueTick]
  split
  · rename_i hspan
    refine ⟨hahead, alignTick_mod _, hdueTick ▸ hdue, .inl ⟨?_, ?_⟩⟩
    · exact (alignTick_le _).trans (hspan.trans (Nat.min_le_left _ _))
    · rw [slotIndex_alignTick]
      exact mem_pushSlot.2 (.inr ⟨rfl, mem_singleton_self _⟩)
  rename_i hspan
  rw [saturatingAdd, Nat.le_min, not_and_or] at hspan
  have hover := hplace.resolve_left (hspan.resolve_right (not_not_intro hbound))
  refine ⟨hahead, alignTick_mod _, hdueTick ▸ hdue, .inr ⟨hover, ?_⟩⟩
  unfold InOverflow
  rw [TreeMap.getElem?_alter, if_pos (Nat.compare_eq_eq.2 rfl)]
  exact ⟨_, rfl, mem_append_right _ (mem_singleton_self _)⟩

/-! ### Ticks -/

/-- Promotion fills the slots from the vectors it moves. -/
theorem mem_foldl_pushSlot (promoted : List (Nat × WheelEntries α))
    (slots : Nat → WheelEntries α) (i : Nat) :
    some item ∈ promoted.foldl (fun slots entry => pushSlot slots (slotIndex entry.1) entry.2)
        slots i ↔
      some item ∈ slots i ∨ ∃ entry ∈ promoted, i = slotIndex entry.1 ∧ some item ∈ entry.2 := by
  induction promoted generalizing slots with
  | nil => simp
  | cons entry rest ih => simp [ih, mem_pushSlot, or_assoc]

/-- **Promotion**: an item of the overflow map is in its slot if its tick has come into reach, and
stays in the map otherwise. -/
theorem promoteOverflow_placed (hover : w.InOverflow tickMs item) (hbound : tickMs ≤ u64Max) :
    if tickMs ≤ w.lastTickMs + wheelSpanMs then
      some item ∈ w.promoteOverflow.slots (slotIndex tickMs)
    else w.promoteOverflow.InOverflow tickMs item := by
  obtain ⟨entries, hentries, hmem⟩ := hover
  split
  · rename_i hreach
    refine (mem_foldl_pushSlot _ _ _).2 (.inr ⟨(tickMs, entries), ?_, rfl, hmem⟩)
    rw [mem_filter, TreeMap.mem_toList_iff_getElem?_eq_some]
    exact ⟨hentries, by simpa [saturatingAdd] using ⟨hreach, hbound⟩⟩
  · rename_i hreach
    refine ⟨entries, ?_, hmem⟩
    unfold promoteOverflow
    rw [TreeMap.getElem?_filter', hentries]
    simp [saturatingAdd, hreach]

theorem slots_promoteOverflow {i : Nat} (h : some item ∈ w.slots i) :
    some item ∈ w.promoteOverflow.slots i :=
  (mem_foldl_pushSlot _ _ _).2 (.inl h)

theorem lastTickMs_tick (hbound : w.lastTickMs + wheelResolutionMs ≤ u64Max) :
    w.tick.1.lastTickMs = w.lastTickMs + wheelResolutionMs := by
  have hlast : saturatingAdd w.lastTickMs wheelResolutionMs = w.lastTickMs + wheelResolutionMs :=
    Nat.min_eq_left hbound
  unfold tick
  dsimp only
  split <;> exact hlast

section Rotation

variable {c : Nat} (hc : c % wheelResolutionMs = 0) (hp : tickMs % wheelResolutionMs = 0)
  (hlt : c + wheelResolutionMs < tickMs)

include hc in
theorem le_nextRotation : c + wheelResolutionMs ≤ nextRotation c := by
  unfold nextRotation
  simp only [wheelResolutionMs, wheelSlots] at *
  omega

include hc in
/-- Between two promotions the next one stays the same. -/
theorem nextRotation_next (hslot : slotIndex (c + wheelResolutionMs) ≠ wheelSlots - 1) :
    nextRotation (c + wheelResolutionMs) = nextRotation c := by
  unfold nextRotation
  simp only [slotIndex, alignTick, wheelResolutionMs, wheelSlots] at *
  omega

include hc in
/-- After a promotion the next one is a span away. -/
theorem nextRotation_last (hslot : slotIndex (c + wheelResolutionMs) = wheelSlots - 1) :
    nextRotation (c + wheelResolutionMs) = c + wheelResolutionMs + wheelSpanMs := by
  unfold nextRotation
  simp only [slotIndex, alignTick, wheelSpanMs, wheelResolutionMs, wheelSlots] at *
  omega

include hc hp hlt in
/-- The ticks of one rotation have different slots. -/
theorem slotIndex_ne (hspan : tickMs ≤ c + wheelSpanMs) :
    slotIndex tickMs ≠ slotIndex (c + wheelResolutionMs) := by
  simp only [slotIndex, alignTick, wheelSpanMs, wheelResolutionMs, wheelSlots] at *
  omega

end Rotation

/-- **One tick** hands out an item due at it and keeps every other item due when it was. -/
theorem Due.tick (h : w.Due item tickMs) (haligned : w.lastTickMs % wheelResolutionMs = 0) :
    if tickMs = w.lastTickMs + wheelResolutionMs then item ∈ w.tick.2
    else w.tick.1.Due item tickMs := by
  have hnext : w.lastTickMs + wheelResolutionMs ≤ tickMs := by
    have := h.ahead
    have := h.aligned
    simp only [wheelResolutionMs] at *
    omega
  have hlast : saturatingAdd w.lastTickMs wheelResolutionMs = w.lastTickMs + wheelResolutionMs :=
    Nat.min_eq_left (hnext.trans h.bounded)
  have hrotation := le_nextRotation haligned
  split
  · rename_i hnow
    rcases h.placed with ⟨-, hslot⟩ | ⟨hover, -⟩
    · rw [hnow, ← hlast] at hslot
      exact reduceOption_mem_iff.2 hslot
    · omega
  rename_i hlater
  have hlt : w.lastTickMs + wheelResolutionMs < tickMs := Nat.lt_of_le_of_ne hnext (Ne.symm hlater)
  unfold Wheel.tick
  simp only [hlast]
  generalize hdrained : ({ w with
    lastTickMs := w.lastTickMs + wheelResolutionMs
    slots := update w.slots (slotIndex (w.lastTickMs + wheelResolutionMs)) [] } :
      Wheel α) = drained
  have hclock : drained.lastTickMs = w.lastTickMs + wheelResolutionMs := by rw [← hdrained]
  have hover_eq : drained.overflow = w.overflow := by rw [← hdrained]
  -- an item of a later tick of the rotation is not in the slot that is drained
  have hslots : tickMs ≤ w.lastTickMs + wheelSpanMs → some item ∈ w.slots (slotIndex tickMs) →
      some item ∈ drained.slots (slotIndex tickMs) := by
    intro hspan hmem
    rw [← hdrained]
    dsimp only
    rwa [update_of_ne (slotIndex_ne haligned h.aligned hlt hspan)]
  split
  · rename_i hslot
    have hahead : drained.promoteOverflow.lastTickMs < tickMs := hclock ▸ hlt
    refine ⟨hahead, h.aligned, h.bounded, ?_⟩
    show tickMs ≤ drained.lastTickMs + wheelSpanMs ∧ _ ∨ nextRotation drained.lastTickMs < _ ∧ _
    rw [hclock, nextRotation_last haligned hslot]
    rcases h.placed with ⟨hspan, hmem⟩ | ⟨-, hover⟩
    · exact .inl ⟨by omega, slots_promoteOverflow (hslots hspan hmem)⟩
    have hpromoted : drained.InOverflow tickMs item := by rwa [InOverflow, hover_eq]
    have hplaced := promoteOverflow_placed hpromoted h.bounded
    rw [hclock] at hplaced
    split at hplaced
    · exact .inl ⟨by assumption, hplaced⟩
    · exact .inr ⟨by omega, hplaced⟩
  · rename_i hslot
    refine ⟨hclock ▸ hlt, h.aligned, h.bounded, ?_⟩
    rw [hclock, nextRotation_next haligned hslot]
    rcases h.placed with ⟨hspan, hmem⟩ | ⟨hnextRotation, hover⟩
    · exact .inl ⟨by omega, hslots hspan hmem⟩
    · exact .inr ⟨hnextRotation, by rwa [InOverflow, hover_eq]⟩

/-- **The loop of `advance`** ends at the target; it hands out what is due up to it and keeps the
rest due when it was. Induction on the rounds. -/
theorem advanceLoop_spec {target : Nat} (htarget : target % wheelResolutionMs = 0)
    (hbound : target ≤ u64Max) (rounds : Nat) (w : Wheel α)
    (haligned : w.lastTickMs % wheelResolutionMs = 0) (hrounds : target - w.lastTickMs ≤ rounds)
    (expired : List α) :
    (advanceLoop target rounds w expired).1.lastTickMs = max w.lastTickMs target ∧
      (∀ item ∈ expired, item ∈ (advanceLoop target rounds w expired).2) ∧
      ∀ item tickMs, w.Due item tickMs →
        if tickMs ≤ target then item ∈ (advanceLoop target rounds w expired).2
        else (advanceLoop target rounds w expired).1.Due item tickMs := by
  have hdone : target ≤ w.lastTickMs → ∀ item tickMs, w.Due item tickMs →
      if tickMs ≤ target then item ∈ expired else w.Due item tickMs := by
    intro hle item tickMs hdue
    have := hdue.ahead
    rwa [if_neg (by omega)]
  induction rounds generalizing w expired with
  | zero =>
    have hle : target ≤ w.lastTickMs := by omega
    exact ⟨(max_eq_left hle).symm, fun _ h => h, hdone hle⟩
  | succ rounds ih =>
    rw [advanceLoop]
    split
    · have hnext : w.lastTickMs + wheelResolutionMs ≤ target := by
        simp only [wheelResolutionMs] at *
        omega
      have hlast := lastTickMs_tick (hnext.trans hbound)
      obtain ⟨hclock, hkept, hrest⟩ := ih w.tick.1 (by rw [hlast]; simpa using haligned)
        (by rw [hlast]; simp only [wheelResolutionMs]; omega) (expired ++ w.tick.2) (by
          intro hle item tickMs hdue
          have := hdue.ahead
          rwa [if_neg (by omega)])
      refine ⟨by rw [hclock]; omega, fun item h => hkept item (mem_append_left _ h), ?_⟩
      intro item tickMs hdue
      have hstep := hdue.tick haligned
      split at hstep
      · rename_i hnow
        rw [if_pos (hnow ▸ hnext)]
        exact hkept item (mem_append_right _ hstep)
      · exact hrest item tickMs hstep
    · rename_i hlt
      have hle : target ≤ w.lastTickMs := Nat.le_of_not_lt hlt
      exact ⟨(max_eq_left hle).symm, fun _ h => h, hdone hle⟩

/-- **Advancing the wheel** moves it to the tick of the time and hands out exactly what is due. -/
theorem lastTickMs_advance (haligned : w.lastTickMs % wheelResolutionMs = 0) {nowMs : Nat}
    (hnow : nowMs ≤ u64Max) : (w.advance nowMs).1.lastTickMs = max w.lastTickMs (alignTick nowMs) :=
  (advanceLoop_spec (alignTick_mod nowMs) ((alignTick_le nowMs).trans hnow) _ w haligned le_rfl
    []).1

theorem Due.advance (h : w.Due item tickMs) (haligned : w.lastTickMs % wheelResolutionMs = 0)
    {nowMs : Nat} (hnow : nowMs ≤ u64Max) :
    if tickMs ≤ alignTick nowMs then item ∈ (w.advance nowMs).2
    else (w.advance nowMs).1.Due item tickMs :=
  (advanceLoop_spec (alignTick_mod nowMs) ((alignTick_le nowMs).trans hnow) _ w haligned le_rfl
    []).2.2 item tickMs h

end Wheel

abbrev TimerWheel := Wheel CompactString

namespace TimerWheel

def scheduleKey (w : TimerWheel) (key : CompactString) (expiresAt : Nat) : TimerWheel :=
  w.schedule key expiresAt

def tombstone (w : TimerWheel) (key : Bytes) (expiresAt : Option Nat) : TimerWheel :=
  Wheel.tombstone w (fun candidate => candidate.bytes == key) expiresAt

def updateExpiry (w : TimerWheel) (key : CompactString) (oldExpiresAt newExpiresAt : Option Nat) :
    TimerWheel :=
  let w := TimerWheel.tombstone w key.bytes oldExpiresAt
  match newExpiresAt with
  | none => w
  | some deadline => TimerWheel.scheduleKey w key deadline

end TimerWheel

abbrev FieldExpiryWheel := Wheel (CompactString × CompactString)

namespace FieldExpiryWheel

def scheduleField (w : FieldExpiryWheel) (key field : CompactString) (expiresAt : Nat) :
    FieldExpiryWheel :=
  w.schedule (key, field) expiresAt

def tombstoneKey (w : FieldExpiryWheel) (key : Bytes) : FieldExpiryWheel :=
  w.tombstoneAll fun candidate => candidate.1.bytes == key

end FieldExpiryWheel

end Senko
