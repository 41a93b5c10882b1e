import Omen.Terminal.Tty

/- Whether a terminal's mode follows its settings. The setting is kept in the termios, in the
   terminal's flags and in the line discipline's mode. -/
namespace OmenTerminal

inductive TtyEvent
  | setTermios (termios : Termios)
  | byte (c : UInt8)

def Tty.event (t : Tty) : TtyEvent → Option Tty
  | .setTermios termios => ttySetTermios t termios
  | .byte c => ttyReadCb t c

def Tty.run (t : Tty) (events : List TtyEvent) : Option Tty := events.foldlM Tty.event t

def outcome (ld : LineDiscipline) (c : UInt8) :
    Option ((Int × Int × (Nat → UInt8)) × List (List UInt8)) :=
  (handOver (lineDisciplineRead ld c)).map fun r => ((r.1.head, r.1.tail, r.1.buffer), r.2)

def FollowsIcanon (t : Tty) (c : UInt8) : Prop :=
  let ld := t.lineDiscipline
  if t.termios.c_lflag &&& ICANON = 0 then
    outcome ld c = some ((ld.head, ld.tail, ld.buffer), [[c]])
  else outcome ld c = outcome (lineDisciplineSetMode ld .canonical) c

/-- What a terminal shows for an echoed byte: an ordinary byte itself, and something for a control
    byte. -/
def Shows (c : UInt8) (text : List UInt8) : Prop :=
  if 32 ≤ c ∧ c ≠ 127 then text = [c] else text ≠ []

/-- A byte is shown with ECHO set, and nothing is written for it with ECHO clear. -/
def FollowsEcho (t : Tty) (c : UInt8) (t' : Tty) : Prop :=
  if t.termios.c_lflag &&& ECHO = 0 then t'.written = t.written
  else ∃ text, t'.written = t.written ++ text ∧ Shows c text

/-- The control bytes up to ESC but backspace, line feed and carriage return. -/
def Silent (c : UInt8) : Prop := c ≤ 27 ∧ c ≠ 8 ∧ c ≠ 10 ∧ c ≠ 13

def echoText (mode : Mode) (c : UInt8) : List UInt8 :=
  match mode with
  | .raw => [c]
  | .canonical =>
    if c ≠ ldDel ∧ 27 < c then [c]
    else if c = ldDel then [8, 32, 8]
    else (defaultLdTable.getD c.toNat (plainEntry .ignore)).output.takeWhile (· ≠ 0)

def echoed (effects : List Effect) : List UInt8 :=
  effects.filterMap fun
    | .flush _ => none
    | .echo c => some c

section Discipline
variable {ld ld' : LineDiscipline} {c : UInt8} {out : List Effect}

/- What no input byte changes. -/
structure SameKind (ld ld' : LineDiscipline) : Prop where
  mode : ld'.mode = ld.mode
  echo : ld'.echo = ld.echo
  size : ld'.size = ld.size

theorem SameKind.trans {ld'' : LineDiscipline} (h : SameKind ld ld') (h' : SameKind ld' ld'') :
    SameKind ld ld'' :=
  ⟨h'.mode.trans h.mode, h'.echo.trans h.echo, h'.size.trans h.size⟩

theorem insert_sameKind (h : lineDisciplineInsert ld c = some ld') : SameKind ld ld' := by
  rw [lineDisciplineInsert] at h
  split at h
  · cases h
    exact ⟨rfl, rfl, rfl⟩
  · split at h
    · cases h
      exact ⟨rfl, rfl, rfl⟩
    · cases h

theorem inserts_sameKind {cs : List UInt8} (h : cs.foldlM lineDisciplineInsert ld = some ld') :
    SameKind ld ld' := by
  induction cs generalizing ld with
  | nil =>
    cases h
    exact ⟨rfl, rfl, rfl⟩
  | cons c cs ih =>
    obtain ⟨mid, first, rest⟩ := Option.bind_eq_some_iff.mp h
    exact (insert_sameKind first).trans (ih rest)

theorem deleteLast_sameKind (ld : LineDiscipline) : SameKind ld (lineDisciplineDeleteLast ld) := by
  rw [lineDisciplineDeleteLast]
  split <;> exact ⟨rfl, rfl, rfl⟩

theorem action_sameKind {action : Action} (h : action.apply ld = some (ld', out)) :
    SameKind ld ld' ∧ echoed out = [] := by
  have quiet : SameKind ld ld := ⟨rfl, rfl, rfl⟩
  have flush (h : lineDisciplineForceFlush ld = some (ld', out)) :
      SameKind ld ld' ∧ echoed out = [] := by
    rw [lineDisciplineForceFlush] at h
    split at h
    · obtain ⟨bytes, -, same⟩ := Option.map_eq_some_iff.mp h
      cases same
      exact ⟨⟨rfl, rfl, rfl⟩, rfl⟩
    · cases h
      exact ⟨quiet, rfl⟩
  cases action <;> first
    | exact flush h
    | cases h; exact ⟨deleteLast_sameKind ld, rfl⟩
    | cases h; exact ⟨quiet, rfl⟩

theorem echoed_append_map (text : List UInt8) (effects : List Effect) :
    echoed (text.map .echo ++ effects) = text ++ echoed effects := by
  simp [echoed, List.filterMap_map]

theorem read_echoes (on : ld.echo = .on) (h : lineDisciplineRead ld c = some (ld', out)) :
    SameKind ld ld' ∧ echoed out = echoText ld.mode c := by
  rw [lineDisciplineRead] at h
  cases mode : ld.mode with
  | raw =>
    simp only [mode, on, if_true] at h
    cases h
    exact ⟨⟨rfl, rfl, rfl⟩, rfl⟩
  | canonical =>
    simp only [mode] at h
    rw [lineDisciplineApply] at h
    rw [echoText]
    by_cases ordinary : c ≠ ldDel ∧ 27 < c
    · rw [if_pos ordinary] at h ⊢
      obtain ⟨mid, inserted, same⟩ := Option.map_eq_some_iff.mp h
      have kind := insert_sameKind inserted
      rw [kind.echo, on, if_pos rfl] at same
      cases same
      exact ⟨kind, rfl⟩
    · rw [if_neg ordinary] at h ⊢
      by_cases del : c = ldDel
      · rw [if_pos del] at h ⊢
        cases h
        exact ⟨deleteLast_sameKind ld, rfl⟩
      · rw [if_neg del] at h ⊢
        obtain ⟨mid, inserted, rest⟩ := Option.bind_eq_some_iff.mp h
        obtain ⟨done, acted, same⟩ := Option.map_eq_some_iff.mp rest
        have kind := inserts_sameKind inserted
        obtain ⟨kind', silent⟩ := action_sameKind acted
        rw [kind.echo, on, if_pos rfl] at same
        cases same
        exact ⟨kind.trans kind', by rw [echoed_append_map, silent, List.append_nil]⟩

theorem shows_echoText_iff (mode : Mode) (c : UInt8) :
    Shows c (echoText mode c) ↔ ¬ Silent c ∨ mode = .raw := by
  cases mode with
  | raw => simp [Shows, echoText]
  | canonical =>
    by_cases low : c ≤ 27
    · have table : ∀ n : Fin 28, Shows n.val.toUInt8 (echoText .canonical n.val.toUInt8) ↔
          ¬ Silent n.val.toUInt8 := by
        unfold Shows Silent
        decide
      have byte := table ⟨c.toNat, Nat.lt_succ_of_le (UInt8.le_iff_toNat_le.mp low)⟩
      simpa using byte
    · have audible : ¬ Silent c := fun silent => low silent.1
      have high : 27 < c := UInt8.not_le.mp low
      simp only [audible, not_false_eq_true, true_or, iff_true, Shows, echoText]
      by_cases del : c = ldDel
      · subst del
        decide
      · simp [del, high]

theorem canonical_outcome_ne (ld : LineDiscipline) (size : ld.size = 1024) (c : UInt8) :
    outcome (lineDisciplineSetMode ld .canonical) c ≠
      some ((ld.head, ld.tail, ld.buffer), [[c]]) := by
  intro same
  rw [outcome, read_canonical rfl] at same
  obtain ⟨⟨ld', out⟩, read, same⟩ := Option.map_eq_some_iff.mp same
  simp only [Prod.mk.injEq] at same
  obtain ⟨⟨head, tail, -⟩, rfl⟩ := same
  have canonical : (lineDisciplineSetMode ld .canonical).mode = .canonical := rfl
  split at read
  · obtain ⟨mid, inserted, flushed⟩ := Option.bind_eq_some_iff.mp read
    obtain ⟨bytes, rfl, -, -⟩ :=
      flush_cases ((insert_sameKind inserted).mode.trans canonical) flushed
    -- The newline has moved the tail on, and the ring has more than one cell.
    rw [lineDisciplineInsert, if_neg (by decide)] at inserted
    split at inserted
    · rename_i inside
      cases inserted
      have moved : (ld.tail + 1).tmod ld.size = ld.tail := tail
      have : 0 ≤ ld.tail ∧ ld.tail < ld.size := inside
      rw [Int.tmod_eq_emod_of_nonneg (by omega), size] at moved
      omega
    · cases inserted
  split at read
  · rename_i eot
    obtain ⟨bytes, rfl, same, taken⟩ := flush_cases canonical read
    have empty : ld.tail = ld.head := head
    have none_taken : flushedBytes (lineDisciplineSetMode ld .canonical)
        (((ld.tail - ld.head + ld.size).bmod (2 ^ 32)).tmod ld.size) = some [] := by
      rw [empty, Int.sub_self, size]
      rfl
    cases same
    cases none_taken.symm.trans taken
  all_goals split at read
  · cases read
  all_goals split at read
  · obtain ⟨mid, -, same⟩ := Option.map_eq_some_iff.mp read
    cases same
  · cases read

end Discipline

section Settings

/- What neither callback changes. -/
structure SameSettings (t t' : Tty) : Prop where
  lineDiscipline : t'.lineDiscipline = t.lineDiscipline
  termios : t'.termios = t.termios
  echo : t'.echo = t.echo

theorem flushCb_same (t : Tty) (bytes : List UInt8) :
    SameSettings t (flushCb t bytes) ∧ (flushCb t bytes).written = t.written := by
  induction bytes generalizing t with
  | nil => exact ⟨⟨rfl, rfl, rfl⟩, rfl⟩
  | cons c bytes ih =>
    obtain ⟨⟨ld, termios, echo⟩, written⟩ := ih (ttyWriteInb t c)
    exact ⟨⟨ld, termios, echo⟩, written⟩

theorem callBacks_same (t : Tty) (effects : List Effect) :
    SameSettings t (effects.foldl Tty.callBack t) ∧ (effects.foldl Tty.callBack t).written =
      t.written ++ if t.echo = 0 then [] else echoed effects := by
  induction effects generalizing t with
  | nil => exact ⟨⟨rfl, rfl, rfl⟩, by simp [echoed]⟩
  | cons effect effects ih =>
    obtain ⟨⟨ld, termios, echo⟩, written⟩ := ih (t.callBack effect)
    have first : SameSettings t (t.callBack effect) ∧ (t.callBack effect).written =
        t.written ++ if t.echo = 0 then [] else echoed [effect] := by
      cases effect with
      | flush bytes =>
        obtain ⟨same, written⟩ := flushCb_same t bytes
        exact ⟨same, by simp [Tty.callBack, written, echoed]⟩
      | echo c =>
        rw [Tty.callBack, echoCb]
        split <;> exact ⟨⟨rfl, rfl, rfl⟩, by simp [echoed]⟩
    obtain ⟨⟨ld₁, termios₁, echo₁⟩, written₁⟩ := first
    refine ⟨⟨ld.trans ld₁, termios.trans termios₁, echo.trans echo₁⟩, ?_⟩
    rw [List.foldl_cons, written, written₁, echo₁, List.append_assoc]
    cases effect <;> split <;> simp [echoed]

theorem echo_flag (lflag : UInt32) : (lflag &&& ECHO).toUInt8 = 0 ↔ lflag &&& ECHO = 0 := by
  have small : (lflag &&& ECHO).toNat ≤ 8 := by
    rw [UInt32.toNat_and]
    exact Nat.and_le_right
  rw [← UInt8.toNat_inj, ← UInt32.toNat_inj, UInt32.toNat_toUInt8, Nat.mod_eq_of_lt (by omega)]
  rfl

/-- The echo flag follows the termios; the discipline's mode does so before the first setting and
    is the other one after it. -/
structure Settled (events : List TtyEvent) (t : Tty) : Prop where
  size : t.lineDiscipline.size = 1024
  on : t.lineDiscipline.echo = .on
  echo : t.echo = 0 ↔ t.termios.c_lflag &&& ECHO = 0
  fresh : (∀ s, .setTermios s ∉ events) →
    t.lineDiscipline.mode = .canonical ∧ t.termios.c_lflag &&& ICANON ≠ 0
  turned : ∀ s, .setTermios s ∈ events →
    t.lineDiscipline.mode = if t.termios.c_lflag &&& ICANON ≠ 0 then .raw else .canonical

variable {events : List TtyEvent} {t t' : Tty} {c : UInt8}

/-- The discipline is in raw mode once settings with ICANON have been set. -/
theorem Settled.raw_iff (h : Settled events t) : t.lineDiscipline.mode = .raw ↔
    t.termios.c_lflag &&& ICANON ≠ 0 ∧ ∃ s, .setTermios s ∈ events := by
  by_cases set : ∃ s, .setTermios s ∈ events
  · obtain ⟨s, member⟩ := set
    rw [h.turned s member]
    split <;> simp_all
    exact ⟨s, member⟩
  · have fresh := (h.fresh fun s member => set ⟨s, member⟩).1
    simp [fresh, set]

theorem readCb_cases (on : t.lineDiscipline.echo = .on) (h : ttyReadCb t c = some t') :
    SameKind t.lineDiscipline t'.lineDiscipline ∧ t'.termios = t.termios ∧ t'.echo = t.echo ∧
      t'.written = t.written ++ if t.echo = 0 then [] else echoText t.lineDiscipline.mode c := by
  obtain ⟨⟨ld, out⟩, read, rfl⟩ := Option.map_eq_some_iff.mp h
  obtain ⟨kind, text⟩ := read_echoes on read
  obtain ⟨⟨ld', termios, echo⟩, written⟩ :=
    callBacks_same { t with lineDiscipline := ld } out
  exact ⟨ld' ▸ kind, termios, echo, by rw [written, text]⟩

theorem event_settled (h : Settled events t) {event : TtyEvent} (step : t.event event = some t') :
    Settled (events ++ [event]) t' := by
  cases event with
  | byte c =>
    obtain ⟨kind, termios, echo, -⟩ := readCb_cases h.on step
    refine ⟨kind.size.trans h.size, kind.echo.trans h.on, by rw [echo, termios, h.echo], ?_, ?_⟩
    · intro none_set
      rw [kind.mode, termios]
      exact h.fresh fun s member => none_set s (by simp [member])
    · intro s member
      rw [kind.mode, termios]
      exact h.turned s (by simpa using member)
  | setTermios termios =>
    rw [Tty.event, ttySetTermios] at step
    split at step
    · cases step
    · cases step
      refine ⟨?_, ?_, echo_flag _, fun none_set => absurd (by simp) (none_set termios), ?_⟩
      · simp only [ttyModes]
        split <;> exact h.size
      · simp only [ttyModes]
        split <;> exact h.on
      · intro s member
        simp only [ttyModes]
        split <;> simp_all [lineDisciplineSetMode]

theorem run_settled {inbs outbs : Nat} {line : Nat → UInt8}
    (reached : (ttyInit inbs outbs line).run events = some t) : Settled events t := by
  induction events using List.reverseRecOn generalizing t with
  | nil =>
    cases reached
    refine ⟨rfl, rfl, ?_, fun _ => ⟨rfl, ?_⟩, fun s member => by cases member⟩
    · simpa only [ttyInit] using by decide
    · simpa only [ttyInit] using by decide
  | append_singleton events event ih =>
    rw [Tty.run, List.foldlM_append] at reached
    obtain ⟨mid, before, last⟩ := Option.bind_eq_some_iff.mp reached
    exact event_settled (ih before) (by simpa using last)

theorem follows_iff_mode (size : t.lineDiscipline.size = 1024) : FollowsIcanon t c ↔
    t.lineDiscipline.mode = if t.termios.c_lflag &&& ICANON = 0 then .raw else .canonical := by
  have differ := canonical_outcome_ne t.lineDiscipline size c
  have raw_outcome (raw : t.lineDiscipline.mode = .raw) : outcome t.lineDiscipline c =
      some ((t.lineDiscipline.head, t.lineDiscipline.tail, t.lineDiscipline.buffer), [[c]]) := by
    rw [outcome, lineDisciplineRead, raw]
    cases t.lineDiscipline.echo <;> simp [handOver, delivered]
  have canonical_same (canonical : t.lineDiscipline.mode = .canonical) :
      lineDisciplineSetMode t.lineDiscipline .canonical = t.lineDiscipline := by
    rw [lineDisciplineSetMode, ← canonical]
  rw [FollowsIcanon]
  cases mode : t.lineDiscipline.mode with
  | raw => split <;> simp [raw_outcome mode, differ.symm]
  | canonical =>
    rw [canonical_same mode] at differ ⊢
    split <;> simp [differ]

/-- A terminal's mode follows ICANON as long as its settings have not been set. Its echo follows
    ECHO but for the control bytes that canonical mode does not show. -/
theorem terminal_mode_iff {inbs outbs : Nat} {line : Nat → UInt8}
    (reached : (ttyInit inbs outbs line).run events = some t) (c : UInt8) :
    (FollowsIcanon t c ↔ ∀ s, .setTermios s ∉ events) ∧
      ∀ t', ttyReadCb t c = some t' → (FollowsEcho t c t' ↔
        t.termios.c_lflag &&& ECHO = 0 ∨ ¬ Silent c ∨
          t.termios.c_lflag &&& ICANON ≠ 0 ∧ ∃ s, .setTermios s ∈ events) := by
  have h := run_settled reached
  refine ⟨?_, fun t' step => ?_⟩
  · rw [follows_iff_mode h.size]
    constructor
    · intro follows s member
      rw [h.turned s member] at follows
      split at follows <;> simp_all
    · intro none_set
      obtain ⟨canonical, icanon⟩ := h.fresh none_set
      rw [canonical, if_neg icanon]
  · obtain ⟨-, -, -, written⟩ := readCb_cases h.on step
    rw [FollowsEcho, written]
    by_cases off : t.termios.c_lflag &&& ECHO = 0
    · simp [off, h.echo.mpr off]
    · have shown := shows_echoText_iff t.lineDiscipline.mode c
      rw [h.raw_iff] at shown
      simp only [off, h.echo, if_false, List.append_cancel_left_eq, exists_eq_left', false_or,
        shown]

theorem terminal_mode_fresh :
    ∃ t t', (ttyInit 8 8 fun _ => 0).run [.byte 104] = some t ∧ ttyReadCb t 105 = some t' ∧
      FollowsIcanon t 105 ∧ FollowsEcho t 105 t' :=
  have reached : (ttyInit 8 8 fun _ => 0).run [.byte 104] = some _ := rfl
  have read : ttyReadCb _ 105 = some _ := rfl
  have both := terminal_mode_iff reached 105
  ⟨_, _, reached, read, both.1.mpr (by simp),
    (both.2 _ read).mpr (Or.inr (Or.inl (by simp [Silent])))⟩

/-- Setting the settings that it has puts a new terminal into raw mode, and a tabulator on a new
    terminal is not shown. -/
theorem terminal_mode_turned :
    (∃ t, (ttyInit 8 8 fun _ => 0).run [.setTermios ⟨ECHO ||| ICANON, ldDefaultTable⟩] = some t ∧
      t.termios.c_lflag &&& ICANON ≠ 0 ∧ t.lineDiscipline.mode = .raw ∧ ¬ FollowsIcanon t 105) ∧
    ∃ t', ttyReadCb (ttyInit 8 8 fun _ => 0) 9 = some t' ∧
      ¬ FollowsEcho (ttyInit 8 8 fun _ => 0) 9 t' := by
  refine ⟨⟨_, rfl, by decide, rfl, ?_⟩, _, rfl, ?_⟩
  · rw [follows_iff_mode rfl]
    decide
  · rintro ⟨text, shown, some⟩
    exact some shown.symm

end Settings
end OmenTerminal
