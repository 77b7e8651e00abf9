import Mathlib.Data.FinEnum
import MoltarOS.Drivers.VgaScroll

/-!
# The keyboard

`drivers/kbd.c`: a byte of the keyboard's scan codes is looked up in one of two tables, the second being for the byte
after a prefix `0xE0`. The arrow keys up and down scroll the screen; of any other key the name is written into the
reserved end of the second row.

## The model

A character code is a `Key`; the entry `0` of a table, where the source lists no key, is `none`. `escaped_to_string`
has no default, so that its result may be a variable that was never set: `none`, a fault when the handler hands it
on. What the handler has the console do is a `Request`; the padding of the name and the moves of the cursor around it
are left out here.

## What is proved

* `deliver_codes` — no table is read past its end, and each code is one request, up to the first without a name.
* `namesDefined_iff` — every name written is a string exactly if the second table lists all keys that come with a
  prefix.
* `deliver_scrolls` — then the screen is scrolled once for each arrow key pressed and once for each released.
* `scrollsAsPressed_iff` — so it is scrolled as the keys are pressed exactly if, besides, neither of them is released.
-/

namespace MoltarOS.Drivers

open MoltarOS.Lib

deriving instance DecidableEq for Move

namespace Kbd

/-! ### The tables -/

/-- The character codes, from `1` on. -/
inductive Key where
  | keyEsc | keyF1 | keyF2 | keyF3 | keyF4 | keyF5 | keyF6 | keyF7 | keyF8 | keyF9 | keyF10 | keyF11 | keyF12
  | keyPrtscr | keyScrollLock | keyPause | keyInsert | keyDelete | keyPageUp | keyPageDown | keyGraveAccent | key1
  | key2 | key3 | key4 | key5 | key6 | key7 | key8 | key9 | key0 | keyMinus | keyEquals | keyBackspace | keyNumlock
  | kpKeySlash | kpKeyAsterisk | kpKeyMinus | keyTab | keyQ | keyW | keyE | keyR | keyT | keyY | keyU | keyI | keyO
  | keyP | keyLbracket | keyRbracket | keyBackSlash | kpKey7 | kpKey8 | kpKey9 | kpKeyPlus | keyCapsLock | keyA | keyS
  | keyD | keyF | keyG | keyH | keyJ | keyK | keyL | keySemicolon | keyApostroph | keyEnter | kpKey4 | kpKey5 | kpKey6
  | keyLshift | keyZ | keyX | keyC | keyV | keyB | keyN | keyM | keyComma | keyPeriod | keySlash | keyRshift | keyUp
  | kpKey1 | kpKey2 | kpKey3 | kpKeyEnter | keyLctrl | keyFn | keyLalt | keySpace | keyBackSlash2 | keyRalt | keySuper
  | keyRctrl | keyLeft | keyDown | keyRight | kpKey0 | kpKeyPeriod
  deriving DecidableEq

/-- `KBD_NSCANS`, the size of both tables. -/
def KBD_NSCANS : ℕ := 0x80

/-- `KBD_SCAN_TABLE`, with the scan codes that it lists. -/
def KBD_SCAN_TABLE : List (UInt8 × Key) :=
  [(0x01, .keyEsc), (0x02, .key1), (0x03, .key2), (0x04, .key3), (0x05, .key4), (0x06, .key5), (0x07, .key6),
   (0x08, .key7), (0x09, .key8), (0x0A, .key9), (0x0B, .key0), (0x0C, .keyMinus), (0x0D, .keyEquals),
   (0x0E, .keyBackspace), (0x0F, .keyTab), (0x10, .keyQ), (0x11, .keyW), (0x12, .keyE), (0x13, .keyR),
   (0x14, .keyT), (0x15, .keyY), (0x16, .keyU), (0x17, .keyI), (0x18, .keyO), (0x19, .keyP),
   (0x1A, .keyLbracket), (0x1B, .keyRbracket), (0x1C, .keyEnter), (0x1D, .keyLctrl), (0x1E, .keyA),
   (0x1F, .keyS), (0x20, .keyD), (0x21, .keyF), (0x22, .keyG), (0x23, .keyH), (0x24, .keyJ), (0x25, .keyK),
   (0x26, .keyL), (0x27, .keySemicolon), (0x28, .keyApostroph), (0x29, .keyGraveAccent), (0x2A, .keyLshift),
   (0x2B, .keyBackSlash), (0x2C, .keyZ), (0x2D, .keyX), (0x2E, .keyC), (0x2F, .keyV), (0x30, .keyB),
   (0x31, .keyN), (0x32, .keyM), (0x33, .keyComma), (0x34, .keyPeriod), (0x35, .keySlash), (0x36, .keyRshift),
   (0x37, .kpKeyAsterisk), (0x38, .keyLalt), (0x39, .keySpace), (0x3A, .keyCapsLock), (0x3B, .keyF1),
   (0x3C, .keyF2), (0x3D, .keyF3), (0x3E, .keyF4), (0x3F, .keyF5), (0x40, .keyF6), (0x41, .keyF7),
   (0x42, .keyF8), (0x43, .keyF9), (0x44, .keyF10), (0x45, .keyNumlock), (0x46, .keyScrollLock), (0x47, .kpKey7),
   (0x48, .kpKey8), (0x49, .kpKey9), (0x4A, .kpKeyMinus), (0x4B, .kpKey4), (0x4C, .kpKey5), (0x4D, .kpKey6),
   (0x4E, .kpKeyPlus), (0x4F, .kpKey1), (0x50, .kpKey2), (0x51, .kpKey3), (0x52, .kpKey0), (0x53, .kpKeyPeriod),
   (0x57, .keyF11), (0x58, .keyF12)]

/-- `KBD_ESCAPED_SCAN_TABLE`, for the byte after `0xE0`. -/
def KBD_ESCAPED_SCAN_TABLE : List (UInt8 × Key) :=
  [(0x1C, .kpKeyEnter), (0x1D, .keyRctrl), (0x35, .kpKeySlash), (0x38, .keyRalt), (0x48, .keyUp),
   (0x49, .keyPageUp), (0x4B, .keyLeft), (0x4D, .keyRight), (0x4F, .keyPageDown), (0x50, .keyDown),
   (0x51, .keyPageDown), (0x52, .keyInsert), (0x53, .keyDelete)]

/-- Converts a character code to string. -/
def toString (code : Option Key) : String :=
  match code with
  | some .keyEsc => "ESC"
  | some .keyF1 => "F1"
  | some .keyF2 => "F2"
  | some .keyF3 => "F3"
  | some .keyF4 => "F4"
  | some .keyF5 => "F5"
  | some .keyF6 => "F6"
  | some .keyF7 => "F7"
  | some .keyF8 => "F8"
  | some .keyF9 => "F9"
  | some .keyF10 => "F10"
  | some .keyF11 => "F11"
  | some .keyF12 => "F12"
  | some .keyPrtscr => "PRTSCR"
  | some .keyScrollLock => "SCROLL_LOCK"
  | some .keyPause => "PAUSE"
  | some .keyGraveAccent => "GRAVE_ACCENT"
  | some .key1 => "1"
  | some .key2 => "2"
  | some .key3 => "3"
  | some .key4 => "4"
  | some .key5 => "5"
  | some .key6 => "6"
  | some .key7 => "7"
  | some .key8 => "8"
  | some .key9 => "9"
  | some .key0 => "0"
  | some .keyMinus => "MINUS"
  | some .keyEquals => "EQUALS"
  | some .keyBackspace => "BACKSPACE"
  | some .keyNumlock => "NUMLOCK"
  | some .kpKeyAsterisk => "(KP) ASTERISK"
  | some .kpKeyMinus => "(KP) MINUS"
  | some .keyTab => "TAB"
  | some .keyQ => "Q"
  | some .keyW => "W"
  | some .keyE => "E"
  | some .keyR => "R"
  | some .keyT => "T"
  | some .keyY => "Y"
  | some .keyU => "U"
  | some .keyI => "I"
  | some .keyO => "O"
  | some .keyP => "P"
  | some .keyLbracket => "LBRACKET"
  | some .keyRbracket => "RBRACKET"
  | some .keyBackSlash => "BACK_SLASH"
  | some .kpKey7 => "(KP) 7"
  | some .kpKey8 => "(KP) 8"
  | some .kpKey9 => "(KP) 9"
  | some .kpKeyPlus => "(KP) PLUS"
  | some .keyCapsLock => "CAPS_LOCK"
  | some .keyA => "A"
  | some .keyS => "S"
  | some .keyD => "D"
  | some .keyF => "F"
  | some .keyG => "G"
  | some .keyH => "H"
  | some .keyJ => "J"
  | some .keyK => "K"
  | some .keyL => "L"
  | some .keySemicolon => "SEMICOLON"
  | some .keyApostroph => "APOSTROPH"
  | some .keyEnter => "ENTER"
  | some .kpKey4 => "(KP) 4"
  | some .kpKey5 => "(KP) 5"
  | some .kpKey6 => "(KP) 6"
  | some .keyLshift => "LSHIFT"
  | some .keyZ => "Z"
  | some .keyX => "X"
  | some .keyC => "C"
  | some .keyV => "V"
  | some .keyB => "B"
  | some .keyN => "N"
  | some .keyM => "M"
  | some .keyComma => "COMMA"
  | some .keyPeriod => "PERIOD"
  | some .keySlash => "SLASH"
  | some .keyRshift => "RSHIFT"
  | some .kpKey1 => "(KP) 1"
  | some .kpKey2 => "(KP) 2"
  | some .kpKey3 => "(KP) 3"
  | some .keyLctrl => "LCTRL"
  | some .keyFn => "FN"
  | some .keyLalt => "LALT"
  | some .keySpace => "SPACE"
  | some .keyBackSlash2 => "BACK_SLASH2"
  | some .keySuper => "SUPER"
  | some .kpKey0 => "(KP) 0"
  | some .kpKeyPeriod => "(KP) PERIOD"
  | _ => "(NULL)"

/-- Converts escaped character codes to string, where it knows them. -/
def escapedToString (code : Option Key) : Option String :=
  match code with
  | some .kpKeyEnter => some "(KP) ENTER"
  | some .keyRctrl => some "RCTRL"
  | some .kpKeySlash => some "(KP) SLASH"
  | some .keyRalt => some "RALT"
  | some .keyUp => some "UP"
  | some .keyPageUp => some "PAGE_UP"
  | some .keyLeft => some "LEFT"
  | some .keyRight => some "RIGHT"
  | some .keyPageDown => some "PAGE_DOWN"
  | some .keyDown => some "DOWN"
  | some .keyDelete => some "DELETE"
  | some .keyInsert => some "INSERT"
  | _ => none

/-! ### The code -/

/-- What can go wrong in the handler. -/
inductive Fault where
  /-- A scan table is read past its end, at this index. -/
  | table (index : UInt8)
  /-- `strlen` is called with a variable that was never set. -/
  | unset

/-- Keyboard state, which drives the state machine in the handler. -/
inductive State where
  /-- `0`: waiting for first byte. -/
  | first
  /-- `1`: waiting for second byte of multibyte sequence. -/
  | second
  deriving DecidableEq

/-- What the handler has the console do. -/
inductive Request where
  /-- Scroll by a line. -/
  | scroll (m : Move)
  /-- Write a name. -/
  | name (str : String)
  deriving DecidableEq

/-- `table[scancode]`. -/
def entry (table : List (UInt8 × Key)) (scancode : UInt8) : Except Fault (Option Key) :=
  if scancode.toNat < KBD_NSCANS then .ok (table.lookup scancode) else .error (.table scancode)

/-- `keyboard_irq_handler`, on the byte that the port gives. -/
def keyboardIrqHandler (state : State) (scancode : UInt8) : Except Fault (State × List Request) :=
  if scancode = 0xE0 then .ok (.second, [])
  else
    -- the source tells here from the most significant bit that the key is released, and then ignores it
    let scancode := scancode &&& ~~~0x80
    match state with
    | .first => do
      let code ← entry KBD_SCAN_TABLE scancode
      .ok (.first, [.name (toString code)])
    | .second => do
      let code ← entry KBD_ESCAPED_SCAN_TABLE scancode
      match code with
      | some .keyDown => .ok (.first, [.scroll .down])
      | some .keyUp => .ok (.first, [.scroll .up])
      | code =>
        match escapedToString code with
        | some str => .ok (.first, [.name str])
        | none => .error .unset

/-- The bytes of a stream, one interrupt for each. -/
def deliver : State → List UInt8 → Except Fault (State × List Request)
  | s, [] => .ok (s, [])
  | s, b :: bs => do
    let (t, rs) ← keyboardIrqHandler s b
    let (u, rs') ← deliver t bs
    .ok (u, rs ++ rs')

/-! ### The stream -/

/-- A scan code: a plain byte, or one with the prefix `0xE0`. -/
inductive Code where
  /-- Without a prefix. -/
  | plain (b : UInt8)
  /-- With it. -/
  | escaped (b : UInt8)
  deriving DecidableEq

/-- The scan codes of a stream, of which the prefix of the first may have come before. A prefix that comes again is
one prefix, and one at the end is none yet. -/
def codes : Bool → List UInt8 → List Code
  | _, [] => []
  | p, b :: bs => if b = 0xE0 then codes true bs else (if p then .escaped b else .plain b) :: codes false bs

/-- The key, as an escaped code, when it is pressed. -/
def press : Move → Code
  | .up => .escaped 0x48
  | .down => .escaped 0x50

/-- And when it is released: the most significant bit is set. -/
def release : Move → Code
  | .up => .escaped 0xC8
  | .down => .escaped 0xD0

/-- What is scrolled for a request. -/
def Request.move? : Request → Option Move
  | .scroll m => some m
  | .name _ => none

/-- The arrow key that is pressed or released. -/
def Code.move? (c : Code) : Option Move :=
  if c = press .up ∨ c = release .up then some .up else if c = press .down ∨ c = release .down then some .down else none

/-! ### What the handler does -/

/-- Without the most significant bit a byte is in the range of the tables. -/
theorem entry_and (table : List (UInt8 × Key)) (b : UInt8) :
    entry table (b &&& ~~~0x80) = .ok (table.lookup (b &&& ~~~0x80)) := by
  have hall : ∀ b : UInt8, (b &&& ~~~0x80).toNat < KBD_NSCANS := by decide +kernel
  exact if_pos (hall b)

/-- The table has either arrow once, and the bit for a release is not looked at. -/
theorem lookup_escaped (b : UInt8) :
    (KBD_ESCAPED_SCAN_TABLE.lookup (b &&& ~~~0x80) = some .keyUp ↔
      Code.escaped b = press .up ∨ Code.escaped b = release .up) ∧
    (KBD_ESCAPED_SCAN_TABLE.lookup (b &&& ~~~0x80) = some .keyDown ↔
      Code.escaped b = press .down ∨ Code.escaped b = release .down) := by
  revert b
  decide +kernel

/-- What a code is a request for: to scroll, for either arrow, or else to write its name, if there is one. -/
def Code.request : Code → Option Request
  | .plain b => some (.name (toString (KBD_SCAN_TABLE.lookup (b &&& ~~~0x80))))
  | .escaped b => match KBD_ESCAPED_SCAN_TABLE.lookup (b &&& ~~~0x80) with
    | some .keyDown => some (.scroll .down)
    | some .keyUp => some (.scroll .up)
    | code => (escapedToString code).map .name

/-- A byte that is no prefix is one code, with its request, and the next byte begins a code. -/
theorem keyboardIrqHandler_code {b : UInt8} (h : b ≠ 0xE0) (p : Bool) :
    keyboardIrqHandler (if p then .second else .first) b =
      (if p then Code.escaped b else Code.plain b).request.elim (.error .unset) fun r => .ok (.first, [r]) := by
  rw [keyboardIrqHandler, if_neg h]
  cases p with
  | false =>
    change (entry _ _ >>= _) = _
    rw [entry_and, ok_bind]
    rfl
  | true =>
    change (entry _ _ >>= _) = _
    rw [entry_and, ok_bind, if_pos rfl, Code.request]
    rcases KBD_ESCAPED_SCAN_TABLE.lookup (b &&& ~~~0x80) with _ | code
    · rfl
    · cases code <;> rfl

/-- **The handler does what the codes of the stream ask for**, in their order, up to the first whose name was never
set; no table is read past its end. -/
theorem deliver_codes (p : Bool) (bs : List UInt8) :
    ∃ t, deliver (if p then .second else .first) bs =
      ((codes p bs).mapM Code.request).elim (.error .unset) fun rs => .ok (t, rs) := by
  induction bs generalizing p with
  | nil => exact ⟨_, rfl⟩
  | cons b bs ih =>
    by_cases hb : b = 0xE0
    · obtain ⟨t, hrun⟩ := ih true
      refine ⟨t, ?_⟩
      rw [deliver, keyboardIrqHandler, if_pos hb, ok_bind]
      change (deliver .second bs >>= _) = _
      rw [if_pos rfl] at hrun
      rw [hrun, codes, if_pos hb]
      cases (codes true bs).mapM Code.request <;> rfl
    · obtain ⟨t, hrun⟩ := ih false
      rw [if_neg Bool.false_ne_true] at hrun
      refine ⟨t, ?_⟩
      rw [deliver, keyboardIrqHandler_code hb, codes, if_neg hb, List.mapM_cons]
      cases (if p then Code.escaped b else Code.plain b).request with
      | none => rfl
      | some r =>
        change (deliver .first bs >>= _) = _
        rw [hrun]
        cases (codes false bs).mapM Code.request <;> rfl

/-! ### Names -/

/-- The table lists a key for the byte after a prefix, pressed or released. -/
def Listed (b : UInt8) : Prop := (KBD_ESCAPED_SCAN_TABLE.lookup (b &&& ~~~0x80)).isSome

instance : DecidablePred Listed := fun b =>
  inferInstanceAs (Decidable ((KBD_ESCAPED_SCAN_TABLE.lookup (b &&& ~~~0x80)).isSome = true))

/-- Every key of the second table has a name in the second switch, -/
theorem request_escaped_isSome_iff (b : UInt8) : (Code.escaped b).request.isSome ↔ Listed b := by
  revert b
  decide +kernel

/-- The codes that have a request: the first switch has a default. -/
theorem request_isSome_iff (c : Code) : c.request.isSome ↔ ∀ b, c = .escaped b → Listed b := by
  cases c with
  | plain b => simp [Code.request]
  | escaped b => simp [request_escaped_isSome_iff]

/-- Several codes have requests if each of them has one. -/
theorem mapM_request_isSome_iff (cs : List Code) :
    (cs.mapM Code.request).isSome ↔ ∀ b, Code.escaped b ∈ cs → Listed b := by
  induction cs with
  | nil => simp
  | cons c cs ih =>
    have hcons : (∀ b, Code.escaped b ∈ c :: cs → Listed b) ↔ c.request.isSome ∧ (cs.mapM Code.request).isSome := by
      rw [ih, request_isSome_iff]
      simp only [List.mem_cons, or_imp, forall_and, eq_comm (a := c)]
    rw [hcons, List.mapM_cons]
    cases c.request with
    | none => simp
    | some r => cases cs.mapM Code.request <;> simp

/-- A stream is handled to its end if the table lists every key that comes with a prefix. -/
theorem deliver_ok_iff (p : Bool) (bs : List UInt8) :
    (∃ t rs, deliver (if p then .second else .first) bs = .ok (t, rs)) ↔
      ∀ b, Code.escaped b ∈ codes p bs → Listed b := by
  obtain ⟨t, hrun⟩ := deliver_codes p bs
  rw [← mapM_request_isSome_iff, hrun]
  cases (codes p bs).mapM Code.request <;> simp

/-- The stream is handled without a read past the end of a table, and with a string for every name. -/
def NamesDefined (p : Bool) (bs : List UInt8) : Prop :=
  ∃ t rs, deliver (if p then .second else .first) bs = .ok (t, rs)

/-- **Every name is a string exactly if the table lists every key that comes with a prefix.** -/
theorem namesDefined_iff (p : Bool) (bs : List UInt8) :
    NamesDefined p bs ↔ ∀ b, Code.escaped b ∈ codes p bs → Listed b :=
  deliver_ok_iff p bs

/-- The shift that comes before some of the arrow keys, with its prefix. -/
theorem not_namesDefined : ¬ NamesDefined false [0xE0, 0x2A] := by
  rintro ⟨t, rs, hrun⟩
  have hrs : deliver .first [0xE0, 0x2A] = .error .unset := rfl
  cases hrs.symm.trans hrun

/-! ### Scrolling -/

theorem move?_request {c : Code} {r : Request} (hr : c.request = some r) : r.move? = c.move? := by
  cases c with
  | plain b =>
    obtain rfl := Option.some.inj hr
    simp [Request.move?, Code.move?, press, release]
  | escaped b =>
    obtain ⟨hup, hdown⟩ := lookup_escaped b
    rw [Code.move?]
    simp only [← hup, ← hdown]
    rw [Code.request] at hr
    split at hr
    · rename_i hcode
      obtain rfl := Option.some.inj hr
      rw [hcode]
      rfl
    · rename_i hcode
      obtain rfl := Option.some.inj hr
      rw [hcode]
      rfl
    · rename_i hnd hnu
      obtain ⟨str, -, rfl⟩ := Option.map_eq_some_iff.mp hr
      rw [if_neg hnu, if_neg hnd]
      rfl

theorem filterMap_move? {cs : List Code} {rs : List Request} (hrs : cs.mapM Code.request = some rs) :
    rs.filterMap Request.move? = cs.filterMap Code.move? := by
  induction cs generalizing rs with
  | nil =>
    obtain rfl := Option.some.inj hrs
    rfl
  | cons c cs ih =>
    simp only [List.mapM_cons, Option.bind_eq_bind, Option.bind_eq_some_iff] at hrs
    obtain ⟨r, hr, rest, hrest, hrs⟩ := hrs
    obtain rfl := Option.some.inj hrs
    rw [List.filterMap_cons, List.filterMap_cons, move?_request hr, ih hrest]

/-- **The handler scrolls for the arrow keys of the stream**, pressed or released, in their order. -/
theorem deliver_scrolls {p : Bool} {bs : List UInt8} {t : State} {rs : List Request}
    (h : deliver (if p then .second else .first) bs = .ok (t, rs)) :
    rs.filterMap Request.move? = (codes p bs).filterMap Code.move? := by
  obtain ⟨t', hrun⟩ := deliver_codes p bs
  cases hrs : (codes p bs).mapM Code.request with
  | none =>
    rw [hrs] at hrun
    cases hrun.symm.trans h
  | some rs' =>
    rw [hrs] at hrun
    cases hrun.symm.trans h
    exact filterMap_move? hrs

/-! ### Counting -/

/-- The two codes of an arrow key are its own. -/
theorem move?_eq_some_iff {c : Code} {m : Move} : c.move? = some m ↔ c = press m ∨ c = release m := by
  unfold Code.move?
  constructor
  · intro h
    split at h
    · rename_i hup
      obtain rfl := Option.some.inj h
      exact hup
    · split at h
      · rename_i hdown
        obtain rfl := Option.some.inj h
        exact hdown
      · cases h
  · intro h
    cases m with
    | up => exact if_pos h
    | down =>
      rw [if_neg, if_pos h]
      rcases h with rfl | rfl <;> simp [press, release]

theorem press_ne_release (m : Move) : press m ≠ release m := by
  cases m <;> simp [press, release]

/-- An arrow key counts as often as it is pressed and released. -/
theorem count_move (m : Move) (cs : List Code) :
    (cs.filterMap Code.move?).count m = cs.count (press m) + cs.count (release m) := by
  induction cs with
  | nil => rfl
  | cons c cs ih =>
    have hne := press_ne_release m
    by_cases hc : c.move? = some m
    · rw [List.filterMap_cons_some hc, List.count_cons_self, ih]
      rcases move?_eq_some_iff.mp hc with rfl | rfl
      · rw [List.count_cons_self, List.count_cons_of_ne hne]
        omega
      · rw [List.count_cons_self, List.count_cons_of_ne hne.symm]
        omega
    · rw [move?_eq_some_iff, not_or] at hc
      rw [List.count_cons_of_ne hc.1, List.count_cons_of_ne hc.2, ← ih, List.filterMap_cons]
      split
      · rfl
      · rename_i m' hm'
        refine List.count_cons_of_ne ?_
        rintro rfl
        exact (move?_eq_some_iff.mp hm').elim hc.1 hc.2

/-- The stream is handled, and the screen is scrolled by a line for each time that an arrow key is pressed, and for
nothing else. -/
def ScrollsAsPressed (bs : List UInt8) : Prop :=
  ∃ t rs, deliver .first bs = .ok (t, rs) ∧ ∀ m, (rs.filterMap Request.move?).count m = (codes false bs).count (press m)

/-- **The screen is scrolled as the arrow keys are pressed exactly if none of them is released**, and every key that
comes with a prefix is one that the table lists. -/
theorem scrollsAsPressed_iff (bs : List UInt8) :
    ScrollsAsPressed bs ↔
      (∀ b, Code.escaped b ∈ codes false bs → Listed b) ∧ ∀ m, release m ∉ codes false bs := by
  have hcount : ∀ {t rs}, deliver .first bs = .ok (t, rs) → ∀ m,
      (rs.filterMap Request.move?).count m = (codes false bs).count (press m) ↔ release m ∉ codes false bs := by
    intro t rs hrun m
    rw [deliver_scrolls (p := false) hrun, count_move, ← List.count_eq_zero]
    omega
  rw [← deliver_ok_iff, if_neg Bool.false_ne_true]
  constructor
  · rintro ⟨t, rs, hrun, hpress⟩
    exact ⟨⟨t, rs, hrun⟩, fun m => (hcount hrun m).mp (hpress m)⟩
  · rintro ⟨⟨t, rs, hrun⟩, hreleased⟩
    exact ⟨t, rs, hrun, fun m => (hcount hrun m).mpr (hreleased m)⟩

/-- The key up is pressed and released: the screen scrolls twice. -/
theorem not_scrollsAsPressed : ¬ ScrollsAsPressed [0xE0, 0x48, 0xE0, 0xC8] := by
  rintro ⟨t, rs, hrun, hpress⟩
  have hrs : deliver .first [0xE0, 0x48, 0xE0, 0xC8] = .ok (.first, [.scroll .up, .scroll .up]) := rfl
  obtain ⟨-, rfl⟩ := Prod.mk.inj (Except.ok.inj (hrs.symm.trans hrun))
  have hup := hpress .up
  revert hup
  decide

end Kbd

end MoltarOS.Drivers
