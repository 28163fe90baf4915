import Senko.Store.StoreRun

/-!
# Senko — active expiry

`advance_expiry_wheel` deletes the keys that the wheel hands out and that have expired by then. A
key is handed out once, at the tick of its deadline, so it is missed if the wheel hands it out a
fraction of a tick early, or if it was put into a slot that the wheel has already passed.

`OnTime` says that every stored deadline is due at its tick. It is kept by the operations that give
out timely deadlines and by the active expiries that hand out nothing early (`Punctual`).
-/

namespace Senko

open List Keyspace Wheel

variable {key : Bytes} {clockMs tickMs deadline now : Nat} {item : CompactString}
  {w w' : TimerWheel} {env : Env} {D : Option Nat → Prop} {V : SenkoValue → SenkoValue → Prop}
  {s s' : Store}

namespace Store

/-- The wheel is going to hand the key out at the tick of the deadline, or at the next tick if the
deadline has passed. Beyond the last time that a `u64` holds there is no tick. -/
def Scheduled (w : TimerWheel) (key : Bytes) (deadline : Nat) : Prop :=
  ∃ (item : CompactString) (tickMs : Nat), item.bytes = key ∧
    (w.Due item tickMs ∨ u64Max < tickMs) ∧ w.lastTickMs < tickMs ∧
    (tickMs = alignTick deadline ∨
      deadline ≤ w.lastTickMs ∧ tickMs = w.lastTickMs + wheelResolutionMs)

/-- **Every stored deadline is scheduled.** -/
structure OnTime (s : Store) : Prop where
  aligned : s.expiryWheel.lastTickMs % wheelResolutionMs = 0
  scheduled : ∀ key e deadline, s.lookup key = some e → e.expiresAt = some deadline →
    Scheduled s.expiryWheel key deadline

/-- A deadline that the wheel can keep. -/
def KeepsDeadline (w : TimerWheel) (expiresAt : Option Nat) : Prop :=
  ∀ deadline, expiresAt = some deadline → deadline ≤ u64Max ∧ Wheel.Timely w.lastTickMs deadline

theorem Scheduled.of_due (h : Scheduled w key deadline) (hlast : w'.lastTickMs = w.lastTickMs)
    (hdue : ∀ (item : CompactString) (tickMs : Nat), item.bytes = key → w.Due item tickMs →
      w'.Due item tickMs) : Scheduled w' key deadline := by
  obtain ⟨item, tickMs, hitem, hplaced, hahead, htick⟩ := h
  rw [Scheduled, hlast]
  exact ⟨item, tickMs, hitem, hplaced.imp_left (hdue item tickMs hitem), hahead, htick⟩

/-- A timely deadline gets scheduled. -/
theorem scheduled_schedule (haligned : w.lastTickMs % wheelResolutionMs = 0)
    (hbound : deadline ≤ u64Max) (htimely : Wheel.Timely w.lastTickMs deadline) :
    Scheduled (w.schedule item deadline) item.bytes deadline := by
  refine ⟨item, dueTick w.lastTickMs deadline, rfl, ?_, ?_, ?_⟩
  · by_cases hdue : dueTick w.lastTickMs deadline ≤ u64Max
    · exact .inl (due_schedule haligned hbound hdue htimely)
    · exact Or.inr (Nat.lt_of_not_le hdue)
  all_goals
    rw [lastTickMs_schedule, dueTick]
    split
  · simp [wheelResolutionMs]
  · rename_i hpast
    exact (htimely.resolve_left hpast).1
  · rename_i hpast
    exact .inr ⟨hpast, rfl⟩
  · exact .inl rfl

/-- A tombstone for one key leaves the items of the others. -/
theorem due_tombstone (h : w.Due item tickMs) (hne : item.bytes ≠ key) (expiresAt : Option Nat) :
    (TimerWheel.tombstone w key expiresAt).Due item tickMs :=
  h.tombstone (by simpa using hne) expiresAt

theorem lastTickMs_updateExpiry {old new : Option Nat} :
    (TimerWheel.updateExpiry w item old new).lastTickMs = w.lastTickMs := by
  unfold TimerWheel.updateExpiry TimerWheel.tombstone TimerWheel.scheduleKey
  cases new <;> simp

theorem due_updateExpiry {other : CompactString} (h : w.Due item tickMs)
    (hne : item.bytes ≠ other.bytes) (old new : Option Nat) :
    (TimerWheel.updateExpiry w other old new).Due item tickMs := by
  have htombstone := due_tombstone h hne old
  unfold TimerWheel.updateExpiry
  cases new with
  | none => exact htombstone
  | some deadline => exact Wheel.Due.schedule htombstone other deadline

theorem scheduled_updateExpiry (haligned : w.lastTickMs % wheelResolutionMs = 0)
    {old new : Option Nat} (hkeeps : KeepsDeadline w new) (hnew : new = some deadline) :
    Scheduled (TimerWheel.updateExpiry w item old new) item.bytes deadline := by
  obtain ⟨hbound, htimely⟩ := hkeeps deadline hnew
  subst hnew
  have hlast : (TimerWheel.tombstone w item.bytes old).lastTickMs = w.lastTickMs :=
    lastTickMs_tombstone _
  exact scheduled_schedule (hlast ▸ haligned) hbound (hlast ▸ htimely)

/-- The entry of a key was there before with the same deadline, and the wheel has lost none of its
items. -/
def KeepsEntry (s s' : Store) (key : Bytes) (e' : Entry) : Prop :=
  ∃ e, s.lookup key = some e ∧ e.expiresAt = e'.expiresAt ∧
    ∀ (item : CompactString) (tickMs : Nat), item.bytes = key →
      s.expiryWheel.Due item tickMs → s'.expiryWheel.Due item tickMs

/-- A change that does not touch the wheel, and leaves the deadlines that it leaves. -/
theorem keepsEntry_of_lookup (hwheel : s'.expiryWheel = s.expiryWheel) {e' : Entry}
    (h : ∃ e, s.lookup key = some e ∧ e.expiresAt = e'.expiresAt) : KeepsEntry s s' key e' := by
  obtain ⟨e, he, hexpires⟩ := h
  exact ⟨e, he, hexpires, fun _ _ _ hdue => hwheel ▸ hdue⟩

/-- Changing an entry in place, but not its deadline. -/
theorem keepsEntry_of_modify (changed : Bytes) (f : Entry → Entry)
    (hkeyspace : s'.keyspace = s.keyspace.modifyEntry changed f)
    (hwheel : s'.expiryWheel = s.expiryWheel) (hf : ∀ e, (f e).expiresAt = e.expiresAt) {e' : Entry}
    (he' : s'.lookup key = some e') : KeepsEntry s s' key e' := by
  refine keepsEntry_of_lookup hwheel ?_
  rw [lookup, hkeyspace, lookup_modifyEntry] at he'
  split at he'
  · rename_i heq
    obtain ⟨e, he, rfl⟩ := Option.map_eq_some_iff.1 he'
    exact ⟨e, heq ▸ he, (hf e).symm⟩
  · exact ⟨e', he', rfl⟩

/-- **What an elementary change does to the deadlines**: an entry is kept with its items in the
wheel, or gets a deadline that is then scheduled. -/
theorem Change.expiry (h : Change env D V s s')
    (hD : ∀ expiresAt, D expiresAt → KeepsDeadline s.expiryWheel expiresAt)
    (haligned : s.expiryWheel.lastTickMs % wheelResolutionMs = 0) :
    s'.expiryWheel.lastTickMs = s.expiryWheel.lastTickMs ∧
      ∀ key e', s'.lookup key = some e' → KeepsEntry s s' key e' ∨
        D e'.expiresAt ∧ ∀ deadline, e'.expiresAt = some deadline →
          Scheduled s'.expiryWheel key deadline := by
  cases h with
  | rehash =>
    refine ⟨rfl, fun key e' he' => .inl (keepsEntry_of_lookup rfl ⟨e', ?_, rfl⟩)⟩
    rwa [lookup, lookup_incrementalRehashStep] at he'
  | resize =>
    refine ⟨rfl, fun key e' he' => .inl (keepsEntry_of_lookup rfl ⟨e', ?_, rfl⟩)⟩
    rwa [lookup_maybeStartResize] at he'
  | remove removed =>
    refine ⟨?_, fun key e' he' => .inl ?_⟩
    · unfold removeSlot
      split
      · rfl
      · exact lastTickMs_tombstone _
    · rw [lookup_removeSlot] at he'
      split at he'
      · cases he'
      rename_i hne
      refine ⟨e', he', rfl, fun item tickMs hitem hdue => ?_⟩
      unfold removeSlot
      rcases hslot : s.keyspace.tables.findSlot removed with _ | slot
      · exact hdue
      refine due_tombstone hdue (fun h => hne ?_) slot.2.expiresAt
      exact hitem.symm.trans (h.trans (Tables.slotKey_of_findSlot hslot))
  | put stored e hgiven =>
    have hlast : (s.insertOrReplace env stored e).expiryWheel.lastTickMs =
        s.expiryWheel.lastTickMs := lastTickMs_tombstone _
    refine ⟨lastTickMs_updateExpiry.trans hlast, fun key e' he' => ?_⟩
    rw [lookup_updateExpiry, lookup_insertOrReplace] at he'
    split at he'
    · rename_i heq
      cases he'
      rw [expiresAt_stored]
      refine .inr ⟨hgiven, fun deadline hdeadline => heq ▸ ?_⟩
      refine scheduled_updateExpiry (hlast ▸ haligned) (fun d hd => ?_) hdeadline
      rw [hlast]
      exact hD _ hgiven d hd
    · rename_i hne
      refine .inl ⟨e', he', rfl, fun item tickMs hitem hdue => ?_⟩
      have hother : item.bytes ≠ stored.bytes := fun h => hne (hitem.symm.trans h)
      exact due_updateExpiry (due_tombstone hdue hother _) hother none e.expiresAt
  | touch touched lru =>
    refine ⟨rfl, fun key e' he' => .inl ?_⟩
    refine keepsEntry_of_modify touched (fun e => { e with lruClock := lru }) ?_ ?_
      (fun _ => rfl) he'
    · rfl
    · rfl
  | @retime retimed stored e expiresAt hslot hgiven =>
    have hkey : stored.bytes = retimed := Tables.slotKey_of_findSlot hslot
    refine ⟨lastTickMs_updateExpiry, fun key e' he' => ?_⟩
    rw [lookup_updateExpiry, lookup, lookup_modifyEntry] at he'
    split at he'
    · rename_i heq
      obtain ⟨e₀, -, rfl⟩ := Option.map_eq_some_iff.1 he'
      refine .inr ⟨hgiven, fun deadline hdeadline => ?_⟩
      rw [heq, ← hkey]
      exact scheduled_updateExpiry haligned (hD _ hgiven) hdeadline
    · rename_i hne
      refine .inl ⟨e', he', rfl, fun item tickMs hitem hdue => ?_⟩
      exact due_updateExpiry hdue (fun h => hne (hitem.symm.trans (h.trans hkey))) _ _
  | mutate mutated e value hlookup hV =>
    refine ⟨rfl, fun key e' he' => .inl ?_⟩
    refine keepsEntry_of_modify mutated (fun e => { e with value }) ?_ ?_ (fun _ => rfl) he'
    · rfl
    · rfl
  | fields | reseed =>
    exact ⟨rfl, fun key e' he' => .inl (keepsEntry_of_lookup rfl ⟨e', he', rfl⟩)⟩

/-- Changes that give out timely deadlines keep every deadline scheduled. -/
theorem OnTime.changes (h : s.OnTime) (hchanges : Changes env D V s s')
    (hD : ∀ expiresAt, D expiresAt → KeepsDeadline s.expiryWheel expiresAt) : s'.OnTime := by
  refine (hchanges.induction (P := fun s' => s'.OnTime ∧
    s'.expiryWheel.lastTickMs = s.expiryWheel.lastTickMs) ?_ ⟨h, rfl⟩).1
  rintro s₁ s₂ hchange ⟨hs₁, hlast⟩
  obtain ⟨hlast', hentries⟩ := hchange.expiry
    (fun expiresAt hgiven d hd => hlast ▸ hD expiresAt hgiven d hd) hs₁.aligned
  refine ⟨⟨hlast' ▸ hs₁.aligned, fun key e' deadline he' hdeadline => ?_⟩, hlast'.trans hlast⟩
  rcases hentries key e' he' with ⟨e, he, hsame, hdue⟩ | ⟨-, hscheduled⟩
  · exact (hs₁.scheduled key e deadline he (hsame.trans hdeadline)).of_due hlast' hdue
  · exact hscheduled deadline hdeadline

/-- Changes that give out no deadline keep the items of what they leave. -/
theorem Changes.keepsEntry (hchanges : Changes env (fun _ => False) V s s')
    (haligned : s.expiryWheel.lastTickMs % wheelResolutionMs = 0) :
    s'.expiryWheel.lastTickMs = s.expiryWheel.lastTickMs ∧
      ∀ key e', s'.lookup key = some e' → KeepsEntry s s' key e' := by
  refine hchanges.induction (P := fun s' =>
    s'.expiryWheel.lastTickMs = s.expiryWheel.lastTickMs ∧
      ∀ key e', s'.lookup key = some e' → KeepsEntry s s' key e') ?_
    ⟨rfl, fun key e' he' => keepsEntry_of_lookup rfl ⟨e', he', rfl⟩⟩
  rintro s₁ s₂ hchange ⟨hlast, hentries⟩
  obtain ⟨hlast', hentries'⟩ := hchange.expiry (fun _ => False.elim) (hlast ▸ haligned)
  refine ⟨hlast'.trans hlast, fun key e' he' => ?_⟩
  obtain ⟨e₁, he₁, hsame₁, hdue₁⟩ := (hentries' key e' he').resolve_right fun h => h.1
  obtain ⟨e, he, hsame, hdue⟩ := hentries key e₁ he₁
  exact ⟨e, he, hsame.trans hsame₁, fun item tickMs hitem h =>
    hdue₁ item tickMs hitem (hdue item tickMs hitem h)⟩

/-! ## Advancing the wheel -/

section Advance

/-- Whatever is stored under a key is live at the clock. -/
def LiveAt (clockMs : Nat) (key : Bytes) (s : Store) : Prop :=
  s.clockMs = clockMs ∧ ∀ e, s.lookup key = some e → isExpired e.expiresAt clockMs = false

theorem LiveAt.removeIfExpired (h : s.LiveAt clockMs key) (removed : Bytes) :
    (s.removeIfExpired env removed s.clockMs).1.LiveAt clockMs key := by
  refine ⟨clockMs_removeIfExpired.trans h.1, fun e he => ?_⟩
  rw [lookup_removeIfExpired] at he
  split at he
  · rename_i heq
    exact h.2 e (heq ▸ (live_eq_some.1 he).1)
  · exact h.2 e he

/-- Removing a key if it has expired. -/
theorem liveAt_removeIfExpired (key : Bytes) :
    (s.removeIfExpired env key s.clockMs).1.LiveAt s.clockMs key := by
  refine ⟨clockMs_removeIfExpired, fun e he => ?_⟩
  rw [lookup_removeIfExpired, if_pos rfl] at he
  exact (live_eq_some.1 he).2

theorem LiveAt.sweepHash (h : s.LiveAt clockMs key) (swept : Bytes)
    (f : HashObject SenkoValue → HashObject SenkoValue) :
    (s.sweepHash env swept f).1.LiveAt clockMs key := by
  -- writing the value keeps the deadline
  have hput : ∀ value, (s.putValue swept value).LiveAt clockMs key := by
    refine fun value => ⟨h.1, fun e he => ?_⟩
    rw [lookup_putValue] at he
    split at he
    · rename_i heq
      obtain ⟨e₀, he₀, rfl⟩ := Option.map_eq_some_iff.1 he
      exact h.2 e₀ (heq ▸ he₀)
    · exact h.2 e he
  unfold Store.sweepHash
  split
  · exact h
  dsimp only
  split
  · refine ⟨clockMs_removeEntry.trans h.1, fun e he => ?_⟩
    have hkept : (Store.removeEntry env _ swept).1.lookup key = some e := he
    rw [lookup_removeEntry] at hkept
    split at hkept
    · cases hkept
    · exact (hput _).2 e hkept
  · exact hput _

/-- A loop over the keys leaves none of them expired. -/
theorem liveAt_countDeleted (items : List CompactString) (deleted : Nat)
    (hclock : s.clockMs = clockMs) (hitem : item ∈ items) :
    (countDeleted (fun s (key : CompactString) => s.removeIfExpired env key.bytes s.clockMs)
      items s deleted).1.LiveAt clockMs item.bytes := by
  -- induction on the keys: the round of the key makes it live, the later ones keep it
  unfold countDeleted
  induction items generalizing s deleted with
  | nil => cases hitem
  | cons first items ih =>
    rw [foldl_cons]
    rcases mem_cons.1 hitem with rfl | hrest
    · refine countDeleted_induction (P := LiveAt clockMs item.bytes) items
        (fun s' key _ h => h.removeIfExpired key.bytes) _ ?_
      exact hclock ▸ liveAt_removeIfExpired item.bytes
    · exact ih _ (clockMs_removeIfExpired.trans hclock) hrest

/-- **What the wheel hands out is not left expired.** -/
theorem liveAt_advanceExpiryWheel (env : Env)
    (hitem : item ∈ (s.expiryWheel.advance (max s.clockMs now)).2) :
    (s.advanceExpiryWheel env now).1.LiveAt (max s.clockMs now) item.bytes := by
  unfold advanceExpiryWheel
  dsimp only
  refine countDeleted_induction _ (fun s' key _ h => h.sweepHash key.bytes _) _ ?_
  refine countDeleted_induction _ (fun s' field _ h => h.sweepHash field.1.bytes _) _ ?_
  exact liveAt_countDeleted _ 0 rfl hitem

variable (s now) in
/-- An active expiry that misses nothing: the clock is not ahead of the time, no stored deadline in
the tick of the time is still ahead, and if the wheel does not move then no stored deadline has
passed by a tick. -/
structure Advances : Prop where
  clock : s.clockMs ≤ now
  bounded : now ≤ u64Max
  notEarly : ∀ key e deadline, s.lookup key = some e → e.expiresAt = some deadline →
    alignTick deadline ≤ alignTick now → deadline ≤ now
  notPassed : alignTick now ≤ s.expiryWheel.lastTickMs →
    ∀ key e deadline, s.lookup key = some e → e.expiresAt = some deadline →
      now < deadline + wheelResolutionMs

/-- **One active expiry**: what it leaves was stored before, is due at a later tick than the wheel
has reached, and has not passed by a tick. -/
theorem OnTime.advance (h : s.OnTime) (hadvance : s.Advances now) :
    (s.advanceExpiryWheel env now).1.OnTime ∧
      ∀ key e' deadline, (s.advanceExpiryWheel env now).1.lookup key = some e' →
        e'.expiresAt = some deadline → now < deadline + wheelResolutionMs := by
  have hclock : max s.clockMs now = now := max_eq_right hadvance.clock
  have hlast := lastTickMs_advance (w := s.expiryWheel) h.aligned hadvance.bounded
  have hstart : (s.afterTicks now).expiryWheel = (s.expiryWheel.advance now).1 := by
    rw [afterTicks, hclock]
  have haligned : (s.afterTicks now).expiryWheel.lastTickMs % wheelResolutionMs = 0 := by
    rw [hstart, hlast]
    rcases max_choice s.expiryWheel.lastTickMs (alignTick now) with hmax | hmax <;> rw [hmax]
    · exact h.aligned
    · exact alignTick_mod now
  obtain ⟨hticks, hentries⟩ :=
    Changes.keepsEntry ((StoreOp.advanceExpiryWheel now).step_changes env s) haligned
  replace hticks : (s.advanceExpiryWheel env now).1.expiryWheel.lastTickMs =
      max s.expiryWheel.lastTickMs (alignTick now) := by
    rw [← hlast, ← hstart]
    exact hticks
  have hkept : ∀ key e' deadline, (s.advanceExpiryWheel env now).1.lookup key = some e' →
      e'.expiresAt = some deadline →
      Scheduled (s.advanceExpiryWheel env now).1.expiryWheel key deadline ∧
        now < deadline + wheelResolutionMs := by
    intro key e' deadline he' hdeadline
    obtain ⟨e, he, hsame, hdue⟩ := hentries key e' he'
    rw [hdeadline] at hsame
    obtain ⟨item, tickMs, hitem, hplaced, hahead, htick⟩ := h.scheduled key e deadline he hsame
    -- an item that is handed out has expired, and is gone
    have hlater : alignTick now < tickMs := by
      by_contra hle
      have hreached : tickMs ≤ alignTick now := Nat.le_of_not_lt hle
      have hexpired : deadline ≤ now := by
        rcases htick with rfl | ⟨hpast, -⟩
        · exact hadvance.notEarly key e deadline he hsame hreached
        · exact hpast.trans (hahead.le.trans (hreached.trans (alignTick_le now)))
      rcases hplaced with hplaced | hbeyond
      · have hhanded := hplaced.advance h.aligned hadvance.bounded
        rw [if_pos hreached] at hhanded
        have hlive := (liveAt_advanceExpiryWheel env (hclock.symm ▸ hhanded)).2 e' (hitem ▸ he')
        simp [isExpired, hdeadline, hexpired] at hlive
      · exact absurd (hreached.trans ((alignTick_le now).trans hadvance.bounded))
          (Nat.not_le.2 hbeyond)
    -- a deadline that had passed is due at the next tick, so the wheel has not moved
    have hstays : tickMs = s.expiryWheel.lastTickMs + wheelResolutionMs →
        alignTick now ≤ s.expiryWheel.lastTickMs := by
      intro hnext
      have hnow := alignTick_mod now
      have hwheel := h.aligned
      simp only [wheelResolutionMs] at *
      omega
    refine ⟨⟨item, tickMs, hitem, ?_, ?_, ?_⟩, ?_⟩
    · refine hplaced.imp_left fun hplaced => hdue item tickMs hitem ?_
      have hwheel := hplaced.advance h.aligned hadvance.bounded
      rw [if_neg (Nat.not_le.2 hlater)] at hwheel
      exact hstart ▸ hwheel
    · rw [hticks]
      exact max_lt hahead hlater
    · rw [hticks]
      refine htick.imp_right fun hpast => ?_
      rw [max_eq_left (hstays hpast.2)]
      exact hpast
    · rcases htick with htick | ⟨-, hnext⟩
      · simp only [alignTick, wheelResolutionMs] at *
        omega
      · exact hadvance.notPassed (hstays hnext) key e deadline he hsame
  refine ⟨⟨?_, fun key e' deadline he' hdeadline => (hkept key e' deadline he' hdeadline).1⟩,
    fun key e' deadline he' hdeadline => (hkept key e' deadline he' hdeadline).2⟩
  rw [hticks, ← hlast, ← hstart]
  exact haligned

end Advance

end Store

/-! ## Runs -/

namespace StoreOp

/-- The operation gives out deadlines that the wheel can keep, and misses nothing if it is an active
expiry. -/
def Punctual (s : Store) : StoreOp → Prop
  | advanceExpiryWheel now => s.Advances now
  | op => ∀ deadline, op.Deadline s (some deadline) →
      deadline ≤ u64Max ∧ Wheel.Timely s.expiryWheel.lastTickMs deadline

theorem onTime_step {op : StoreOp} (h : s.OnTime) (hsafe : op.Punctual s) :
    (op.step env s).OnTime := by
  have hchanges := step_changes env s op
  cases op with
  | advanceExpiryWheel now => exact (h.advance hsafe).1
  | _ =>
    refine Store.OnTime.changes ?_ hchanges ?_
    · exact ⟨h.aligned, h.scheduled⟩
    · rintro expiresAt hgiven deadline rfl
      exact hsafe deadline hgiven

theorem onTime_new (env : Env) (maxMemory : Option Nat) (start : Nat) :
    (Store.new env maxMemory start).OnTime where
  aligned := alignTick_mod start
  scheduled key e deadline he := by
    have hnone : (Store.new env maxMemory start).lookup key = none := lookup_empty
    rw [hnone] at he
    cases he

/-- **Active expiry misses no key**: in a run that gives out deadlines the wheel can keep and hands
out nothing early, no entry is stored after an active expiry whose deadline had passed by a tick. -/
theorem active_expiry_complete (env : Env) (maxMemory : Option Nat) (start : Nat)
    (ops : List StoreOp) (now : Nat)
    (hsafe : All env Punctual (Store.new env maxMemory start) (ops ++ [.advanceExpiryWheel now])) :
    ∀ key e deadline,
      (run env (Store.new env maxMemory start) (ops ++ [.advanceExpiryWheel now])).lookup key =
        some e →
      e.expiresAt = some deadline → ¬ deadline + wheelResolutionMs ≤ now := by
  obtain ⟨hops, hlast⟩ := hsafe.of_append_singleton
  have hontime : (run env (Store.new env maxMemory start) ops).OnTime :=
    hops.induction (fun s op h hsafe => onTime_step h hsafe) (onTime_new env maxMemory start)
  intro key e deadline he hdeadline
  rw [run, foldl_append] at he
  exact Nat.not_le.2 ((hontime.advance hlast).2 key e deadline he hdeadline)

/-- A deadline in the tick after next, and an active expiry two ticks later. -/
theorem active_expiry_complete_deadline : let ops : List StoreOp :=
      [.set 0 ⟨[107], by decide⟩ (.int 7) { expiry := .pxAt 150 }, .advanceExpiryWheel 300]
    ∀ e, (run Env.plain (Store.new Env.plain none 0) ops).lookup [107] = some e →
      e.expiresAt ≠ some 150 := by
  intro ops e he hdeadline
  let set : StoreOp := .set 0 ⟨[107], by decide⟩ (.int 7) { expiry := .pxAt 150 }
  have hstored : ∀ d ∈ (set.step Env.plain (Store.new Env.plain none 0)).keyspace.tables.slots.map
      fun slot => slot.2.expiresAt, d = some 150 := by
    decide
  have hentries : ∀ key e deadline,
      (set.step Env.plain (Store.new Env.plain none 0)).lookup key = some e →
      e.expiresAt = some deadline → deadline = 150 := by
    intro key e deadline he hdeadline
    obtain ⟨slot, hslot, -, rfl⟩ := Keyspace.lookup_eq_some.1 he
    have h := hstored _ (mem_map_of_mem hslot)
    rw [hdeadline, Option.some.injEq] at h
    exact h
  refine active_expiry_complete Env.plain none 0 [set] 300 ⟨?_, ⟨?_, ?_, ?_, ?_⟩, trivial⟩
    [107] e 150
    he hdeadline (by decide)
  · rintro deadline ⟨⟩
    exact ⟨by decide, by decide⟩
  · decide
  · decide
  · intro key e deadline he hdeadline _
    rw [hentries key e deadline he hdeadline]
    decide
  · intro hstays
    exact absurd hstays (by decide)

/-- **A deadline within the current tick is missed**: its slot has just been drained, and comes up
again a whole rotation later. -/
theorem active_expiry_complete_fails : ¬ ∀ (env : Env) (maxMemory : Option Nat) (start : Nat)
    (ops : List StoreOp) (now : Nat),
    ∀ key e deadline,
      (run env (Store.new env maxMemory start) (ops ++ [.advanceExpiryWheel now])).lookup key =
        some e →
      e.expiresAt = some deadline → ¬ deadline + wheelResolutionMs ≤ now := by
  intro h
  have hstored : ((run Env.plain (Store.new Env.plain none 0)
      [.set 0 ⟨[107], by decide⟩ (.int 7) { expiry := .pxAt 50 }, .advanceExpiryWheel 200]).lookup
        [107]).any (fun e => e.expiresAt == some 50) = true := by
    decide
  obtain ⟨e, he, hdeadline⟩ := (Option.any_eq_true _ _).1 hstored
  exact h Env.plain none 0 [.set 0 ⟨[107], by decide⟩ (.int 7) { expiry := .pxAt 50 }] 200
    [107] e 50
    he (by simpa using hdeadline) (by decide)

end StoreOp

end Senko
