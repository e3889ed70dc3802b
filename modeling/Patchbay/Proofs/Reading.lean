import Patchbay.Json.Decoder
import Patchbay.Proofs.Spelling

/-! Reading the texts of a tree. A text is read as the tree that it spells, and a text that is cut
as the part of the tree before the cut, with the fault of a text that is too short in each place
left open. -/

namespace Patchbay.Json

variable {S : Numeral → List Char → Prop} {C : State → Prop} {s s' s'' : State} {stack : List Frame}

/-! States on the way -/

/-- Whether characters lead from one state to another, with all states before the last in `C`. -/
inductive Passes (C : State → Prop) : State → List Char → State → Prop
  | nil (s : State) : Passes C s [] s
  | cons {s s' : State} {c : Char} {cs : List Char} : C s → Passes C (step s c) cs s' →
    Passes C s (c :: cs) s'

theorem Passes.single {c : Char} (hs : C s) : Passes C s [c] (step s c) := .cons hs (.nil _)

theorem Passes.append {cs ds : List Char} (h : Passes C s cs s') (h' : Passes C s' ds s'') :
    Passes C s (cs ++ ds) s'' := by
  induction h with
  | nil => exact h'
  | cons hs _ ih => exact .cons hs (ih h')

theorem Passes.mono {D : State → Prop} {cs : List Char} (h : Passes C s cs s')
    (hD : ∀ s, C s → D s) : Passes D s cs s' := by
  induction h with
  | nil => exact .nil _
  | cons hs _ ih => exact .cons (hD _ hs) ih

theorem Passes.foldl_eq {cs : List Char} (h : Passes C s cs s') : cs.foldl step s = s' := by
  induction h with
  | nil => rfl
  | cons _ _ ih => exact ih

theorem Passes.on_the_way {cs ds : List Char} (h : Passes C s (cs ++ ds) s') (hd : ds ≠ []) :
    C (cs.foldl step s) := by
  induction cs generalizing s with
  | nil =>
    cases h with
    | nil => exact absurd rfl hd
    | cons hs _ => exact hs
  | cons c cs ih =>
    cases h with
    | cons _ h => exact ih h

theorem passes_blanks {cs : List Char} (hb : Blank cs) (hs : ∀ c, isBlank c = true → step s c = s)
    (hC : C s) : Passes C s cs s := by
  induction cs with
  | nil => exact .nil s
  | cons c cs ih =>
    have hc := hs c (hb c List.mem_cons_self)
    have hcs := ih fun x hx => hb x (List.mem_cons_of_mem _ hx)
    refine .cons hC ?_
    rwa [hc]

/-! Before and after a value -/

structure Awaits (stack : List Frame) (s : State) : Prop where
  blank : ∀ c : Char, isBlank c = true → step s c = s
  start : ∀ c : Char, isBlank c = false → c ≠ ']' → step s c = startValue stack c

def endsNumber (c : Char) : Bool := !(c.isDigit || c = '.' || c = 'e' || c = 'E')

theorem endsNumber_of_isBlank {c : Char} (hc : isBlank c = true) : endsNumber c = true := by
  simp only [isBlank, Bool.or_eq_true, decide_eq_true_eq] at hc
  rcases hc with ((rfl | rfl) | rfl) | rfl <;> rfl

/-- Whether a value has been read in full. A number is handed over only at the character after
it. -/
structure Holds (t : Tree) (stack : List Frame) (s : State) : Prop where
  next : ∀ c : Char, endsNumber c = true → step s c = stepOutside (deliver t stack) c
  left : finish s = finishOutside (deliver t stack)

theorem holds_deliver (t : Tree) (stack : List Frame) : Holds t stack (deliver t stack) := by
  cases stack with
  | nil => exact ⟨fun _ _ => rfl, rfl⟩
  | cons frame rest => cases frame <;> exact ⟨fun _ _ => rfl, rfl⟩

theorem holds_number {part : NumberPart} (hp : part.isWhole = true) (n : Numeral)
    (stack : List Frame) : Holds (.number n) stack (.reading stack (.number part n)) := by
  refine ⟨fun c hc => ?_, by simp [finish, hp]⟩
  have hdone : advance part n c = .done := by
    simp only [endsNumber, Bool.not_eq_true', Bool.or_eq_false_iff, decide_eq_false_iff_not] at hc
    obtain ⟨⟨⟨hdigit, hpoint⟩, he⟩, hE⟩ := hc
    cases part <;> simp_all [advance, NumberPart.isWhole]
  simp [step, hdone]

theorem stepOutside_deliver_blank (t : Tree) (stack : List Frame) {c : Char}
    (hc : isBlank c = true) : stepOutside (deliver t stack) c = deliver t stack := by
  cases stack with
  | nil => simp [deliver, stepOutside, hc]
  | cons frame rest => cases frame <;> simp [deliver, stepOutside, stepMode, hc]

theorem Holds.passes {t : Tree} (hh : Holds t stack s) {bs : List Char} (hb : Blank bs) {c : Char}
    (hc : endsNumber c = true) (hC : ∀ s, finish s = finishOutside (deliver t stack) → C s) :
    Passes C s (bs ++ [c]) (stepOutside (deliver t stack) c) := by
  have hd := holds_deliver t stack
  cases bs with
  | nil => exact hh.next c hc ▸ .single (hC _ hh.left)
  | cons b bs =>
    have hblank : isBlank b = true := hb b List.mem_cons_self
    have hfirst : step s b = deliver t stack := by
      rw [hh.next b (endsNumber_of_isBlank hblank), stepOutside_deliver_blank t stack hblank]
    refine .cons (hC _ hh.left) ?_
    rw [hfirst, ← hd.next c hc]
    refine (passes_blanks (fun x hx => hb x (List.mem_cons_of_mem _ hx)) (fun x hx => ?_)
      (hC _ hd.left)).append (.single (hC _ hd.left))
    rw [hd.next x (endsNumber_of_isBlank hx), stepOutside_deliver_blank t stack hx]

/-! What a cut leaves -/

/-- What is left of a phrase whose text is cut, with numbers as `S` has them. -/
inductive Cut (S : Numeral → List Char → Prop) : Phrase → Phrase → Prop
  | nothing {t : Tree} {f : Fault} : f.violation.isEnd = true →
    Cut S (.value t) (.value (.broken f))
  | number {n n' : Numeral} {cs rest : List Char} : S n (cs ++ rest) → rest ≠ [] → Scans n' cs →
    Cut S (.value (.number n)) (.value (.number n'))
  | string {ps rest : List Piece} :
    Cut S (.value (.string ⟨ps ++ rest, none⟩)) (.value (.string ⟨ps, some .stringEnds⟩))
  | array {ts ts' : List Tree} {f : Fault} : f.violation.isEnd = true →
    Cut S (.items ts) (.items ts') →
    Cut S (.value (.array ts none)) (.value (.array ts' (some f)))
  | object {ms ms' : List (Quoted × Tree)} {f : Fault} : f.violation.isEnd = true →
    Cut S (.members ms) (.members ms') →
    Cut S (.value (.object ms none)) (.value (.object ms' (some f)))
  | noItems {ts : List Tree} : Cut S (.items ts) (.items [])
  | laterItem {t : Tree} {ts ts' : List Tree} : Cut S (.items ts) (.items ts') →
    Cut S (.items (t :: ts)) (.items (t :: ts'))
  | item {t t' : Tree} {ts : List Tree} : Cut S (.value t) (.value t') →
    Cut S (.items (t :: ts)) (.items [t'])
  | noMembers {ms : List (Quoted × Tree)} : Cut S (.members ms) (.members [])
  | laterMember {m : Quoted × Tree} {ms ms' : List (Quoted × Tree)} :
    Cut S (.members ms) (.members ms') →
    Cut S (.members (m :: ms)) (.members (m :: ms'))
  | key {ps rest : List Piece} {t : Tree} {ms : List (Quoted × Tree)} :
    Cut S (.members ((⟨ps ++ rest, none⟩, t) :: ms))
      (.members [(⟨ps, some .stringEnds⟩, .broken .stringEnds)])
  | member {key : Quoted} {t t' : Tree} {ms : List (Quoted × Tree)} : Cut S (.value t) (.value t') →
    Cut S (.members ((key, t) :: ms)) (.members [(key, t')])

/-- A state inside the text of a value. -/
def ValueCut (S : Numeral → List Char → Prop) (t : Tree) (stack : List Frame) (s : State) : Prop :=
  ∃ t', Cut S (.value t) (.value t') ∧
    ((∃ f : Fault, f.violation.isEnd = true ∧ finish s = ⟨enclose f t' stack, false⟩) ∨
      Holds t' stack s)

/-- A state inside what an array still holds after `items`, the newest of these first. -/
def ItemsCut (S : Numeral → List Char → Prop) (ts items : List Tree) (stack : List Frame)
    (s : State) : Prop :=
  ∃ (f : Fault) (ts' : List Tree), f.violation.isEnd = true ∧ Cut S (.items ts) (.items ts') ∧
    finish s = ⟨leaveArray f (ts'.reverse ++ items) stack, false⟩

def MembersCut (S : Numeral → List Char → Prop) (ms members : List (Quoted × Tree))
    (stack : List Frame) (s : State) : Prop :=
  ∃ (f : Fault) (ms' : List (Quoted × Tree)), f.violation.isEnd = true ∧
    Cut S (.members ms) (.members ms') ∧
    finish s = ⟨leaveObject f (ms'.reverse ++ members) stack, false⟩

/-! Tokens -/

theorem passes_scan {part part' : NumberPart} {n n' : Numeral} {cs : List Char}
    (hs : scan part n cs = some (part', n'))
    (hC : ∀ (ds rest : List Char) (k : NumberPart) (m : Numeral), cs = ds ++ rest → rest ≠ [] →
      scan part n ds = some (k, m) → C (.reading stack (.number k m))) :
    Passes C (.reading stack (.number part n)) cs (.reading stack (.number part' n')) := by
  induction cs generalizing part n with
  | nil =>
    cases hs
    exact .nil _
  | cons c cs ih =>
    have hstart := hC [] (c :: cs) part n rfl nofun rfl
    rw [scan] at hs
    split at hs
    · next k m ha =>
      have hstep : step (.reading stack (.number part n)) c = .reading stack (.number k m) := by
        simp [step, ha]
      refine .cons hstart (hstep ▸ ih hs fun ds rest k' m' hcs hrest hds => ?_)
      exact hC (c :: ds) rest k' m' (by rw [hcs, List.cons_append]) hrest
        (by rw [scan, ha]; exact hds)
    · cases hs

theorem startValue_digit {c : Char} (hc : c.isDigit = true) {part : NumberPart} {n : Numeral}
    (ha : advance .sign (startNumeral false) c = .more part n) :
    startValue stack c = .reading stack (.number part n) := by
  have hne : ∀ x : Char, x.isDigit = false → c ≠ x := by
    rintro x hx rfl
    rw [hc] at hx
    cases hx
  simp [startValue, hc, ha, hne 'n' rfl, hne 't' rfl, hne 'f' rfl, hne '-' rfl]

theorem isDigit_of_advance_sign {n m : Numeral} {part : NumberPart} {c : Char}
    (ha : advance .sign n c = .more part m) : c.isDigit = true := by
  simp only [advance] at ha
  split at ha
  · next hzero => exact hzero ▸ rfl
  · split at ha
    · assumption
    · cases ha

theorem Awaits.passes_number (hw : Awaits stack s) {n : Numeral} {cs : List Char} (hs : Scans n cs)
    (hC : C s) (hcut : ∀ (ds rest : List Char) (k : NumberPart) (m : Numeral), cs = ds ++ rest →
      rest ≠ [] → scanNumeral ds = some (k, m) → C (.reading stack (.number k m))) :
    ∃ part, part.isWhole = true ∧ Passes C s cs (.reading stack (.number part n)) := by
  obtain ⟨part, hwhole, hscan⟩ := hs
  refine ⟨part, hwhole, ?_⟩
  cases cs with
  | nil =>
    cases hscan
    cases hwhole
  | cons c cs =>
    by_cases hminus : c = '-'
    · subst hminus
      have hfirst : step s '-' = .reading stack (.number .sign (startNumeral true)) :=
        hw.start '-' rfl nofun
      refine .cons hC (hfirst ▸ passes_scan hscan fun ds rest k m hcs hrest hds => ?_)
      exact hcut ('-' :: ds) rest k m (by rw [hcs, List.cons_append]) hrest hds
    · have hsign : ∀ ds, scanNumeral (c :: ds) = scan .sign (startNumeral false) (c :: ds) := by
        intro ds
        simp [scanNumeral, hminus]
      rw [hsign, scan] at hscan
      split at hscan
      · next k m ha =>
        have hdigit := isDigit_of_advance_sign ha
        have hblank : isBlank c = false := by
          by_contra hb
          have hends := endsNumber_of_isBlank (c := c) (by simpa using hb)
          simp [endsNumber, hdigit] at hends
        have hclose : c ≠ ']' := by
          rintro rfl
          cases hdigit
        have hfirst : step s c = .reading stack (.number k m) := by
          rw [hw.start c hblank hclose, startValue_digit hdigit ha]
        refine .cons hC (hfirst ▸ passes_scan hscan fun ds rest k' m' hcs hrest hds => ?_)
        refine hcut (c :: ds) rest k' m' (by rw [hcs, List.cons_append]) hrest ?_
        rw [hsign, scan, ha]
        exact hds
      · cases hscan

theorem passes_word {t : Tree} {cs : List Char} (hcs : cs ≠ [])
    (hC : ∀ rest, C (.reading stack (.word rest t))) :
    Passes C (.reading stack (.word cs t)) cs (deliver t stack) := by
  induction cs with
  | nil => exact absurd rfl hcs
  | cons c cs ih =>
    refine .cons (hC _) ?_
    cases cs with
    | nil =>
      have hlast : step (.reading stack (.word [c] t)) c = deliver t stack := by
        simp [step, stepOutside, stepMode, stepWord]
      rw [hlast]
      exact .nil _
    | cons d ds =>
      have hnext : step (.reading stack (.word (c :: d :: ds) t)) c =
          .reading stack (.word (d :: ds) t) := by
        simp [step, stepOutside, stepMode, stepWord]
      rw [hnext]
      exact ih nofun

theorem utf8Size_of_hexValue? {c : Char} {n : Nat} (hc : hexValue? c = some n) :
    c.utf8Size = 1 := by
  have hascii : c.val ≤ 127 := by
    by_cases hdigit : c.isDigit = true
    · have hbounds : '0'.val ≤ c.val ∧ c.val ≤ '9'.val := by simpa [Char.isDigit] using hdigit
      exact UInt32.le_trans hbounds.2 (by decide)
    · by_cases hlower : 'a' ≤ c ∧ c ≤ 'f'
      · exact UInt32.le_trans hlower.2 (by decide)
      · by_cases hupper : 'A' ≤ c ∧ c ≤ 'F'
        · exact UInt32.le_trans hupper.2 (by decide)
        · simp [hexValue?, hdigit, hlower, hupper] at hc
  exact Char.utf8Size_eq_one_iff.mpr hascii

theorem step_backslash (place : Place) (read : List Piece) :
    step (.reading stack (.string place read)) '\\' = .reading stack (.escape place read) := by
  simp [step, stepOutside, stepMode, stepString]

theorem step_hexDigit {v : Nat} {e : Char} (stack : List Frame) (place : Place) (read : List Piece)
    {missing : Nat} (hm : 1 < missing) (code : Nat) (he : hexValue? e = some v) :
    step (.reading stack (.codeUnit place read missing (some code))) e =
      .reading stack (.codeUnit place read (missing - 1) (some (code * 16 + v))) := by
  simp [step, stepOutside, stepMode, stepCodeUnit, he, utf8Size_of_hexValue? he, hm]

theorem step_lastHexDigit {v : Nat} {e : Char} (stack : List Frame) (place : Place)
    (read : List Piece) (code : Nat) (he : hexValue? e = some v) :
    step (.reading stack (.codeUnit place read 1 (some code))) e =
      .reading stack (.string place (.unit (code * 16 + v) :: read)) := by
  simp [step, stepOutside, stepMode, stepCodeUnit, he, utf8Size_of_hexValue? he]

/-- All states before the last digit leave the string where it was before the escape. -/
theorem passes_codeUnit {a b c d : Char} {w x y z : Nat} (ha : hexValue? a = some w)
    (hb : hexValue? b = some x) (hc : hexValue? c = some y) (hd : hexValue? d = some z)
    (place : Place) (read : List Piece)
    (hC : ∀ s, finish s = ⟨leaveQuoted .stringEnds place read stack, false⟩ → C s) :
    Passes C (.reading stack (.string place read)) ['\\', 'u', a, b, c, d]
      (.reading stack (.string place (.unit (((w * 16 + x) * 16 + y) * 16 + z) :: read))) := by
  have hu : step (.reading stack (.escape place read)) 'u' =
      .reading stack (.codeUnit place read 4 (some 0)) := by
    simp [step, stepOutside, stepMode, stepEscape]
  have h4 := step_hexDigit stack place read (Nat.le_of_ble_eq_true rfl : 1 < 4) 0 ha
  have h3 := step_hexDigit stack place read (Nat.le_of_ble_eq_true rfl : 1 < 3) (0 * 16 + w) hb
  have h2 := step_hexDigit stack place read (Nat.le_refl 2) ((0 * 16 + w) * 16 + x) hc
  have h1 := step_lastHexDigit stack place read (((0 * 16 + w) * 16 + x) * 16 + y) hd
  refine .cons (hC _ rfl) (step_backslash place read ▸ .cons (hC _ rfl) (hu ▸ ?_))
  refine .cons (hC _ rfl) (h4 ▸ .cons (hC _ rfl) (h3 ▸ .cons (hC _ rfl) (h2 ▸ ?_)))
  have hlast := Passes.single (c := d) (hC (.reading stack (.codeUnit place read 1
    (some (((0 * 16 + w) * 16 + x) * 16 + y)))) rfl)
  rw [h1] at hlast
  simpa using hlast

theorem Quotes.passes {ps : List Piece} {cs : List Char} (hq : Quotes ps cs) (stack : List Frame)
    (place : Place) (read : List Piece)
    (hC : ∀ (ps' rest : List Piece) (s : State), ps = ps' ++ rest →
      finish s = ⟨leaveQuoted .stringEnds place (ps'.reverse ++ read) stack, false⟩ → C s) :
    Passes C (.reading stack (.string place read)) cs
      (deliverQuoted ⟨read.reverse ++ ps, none⟩ place stack) := by
  induction hq generalizing read with
  | close =>
    have hlast : step (.reading stack (.string place read)) '"' =
        deliverQuoted ⟨read.reverse, none⟩ place stack := by
      simp [step, stepOutside, stepMode, stepString]
    rw [List.append_nil, ← hlast]
    exact .single (hC [] [] _ rfl rfl)
  | @char c ps cs hquote hslash hplain _ ih =>
    have hnext : step (.reading stack (.string place read)) c =
        .reading stack (.string place (.char c :: read)) := by
      simp [step, stepOutside, stepMode, stepString, hquote, hslash, Nat.not_lt.mpr hplain]
    have hrest := ih (.char c :: read) fun ps' rest s hps hf =>
      hC (.char c :: ps') rest s (by rw [hps, List.cons_append]) (by simpa using hf)
    rw [List.reverse_cons, List.append_assoc, List.singleton_append] at hrest
    exact .cons (hC [] _ _ rfl rfl) (hnext ▸ hrest)
  | @escape e c ps cs he _ ih =>
    have hu : e ≠ 'u' := by
      rintro rfl
      cases he
    have hnext : step (.reading stack (.escape place read)) e =
        .reading stack (.string place (.char c :: read)) := by
      simp [step, stepOutside, stepMode, stepEscape, hu, he]
    have hrest := ih (.char c :: read) fun ps' rest s hps hf =>
      hC (.char c :: ps') rest s (by rw [hps, List.cons_append]) (by simpa using hf)
    rw [List.reverse_cons, List.append_assoc, List.singleton_append] at hrest
    exact .cons (hC [] _ _ rfl rfl)
      (step_backslash place read ▸ .cons (hC [] _ _ rfl rfl) (hnext ▸ hrest))
  | @unit a b c d w x y z ps cs ha hb hc hd _ ih =>
    have hrest := ih (.unit (((w * 16 + x) * 16 + y) * 16 + z) :: read) fun ps' rest s hps hf =>
      hC (.unit (((w * 16 + x) * 16 + y) * 16 + z) :: ps') rest s (by rw [hps, List.cons_append])
        (by simpa using hf)
    rw [List.reverse_cons, List.append_assoc, List.singleton_append] at hrest
    exact (passes_codeUnit ha hb hc hd place read fun s hs => hC [] _ s rfl hs).append hrest

/-! Phrases -/

/-- Whether the next item of an array may come, after `items`. -/
structure AwaitsItem (items : List Tree) (stack : List Frame) (s : State) : Prop where
  awaits : Awaits (.array items :: stack) s
  left : ∃ f : Fault, f.violation.isEnd = true ∧ finish s = ⟨leaveArray f items stack, false⟩

structure AwaitsKey (members : List (Quoted × Tree)) (stack : List Frame) (s : State) : Prop where
  blank : ∀ c : Char, isBlank c = true → step s c = s
  quote : step s '"' = .reading stack (.string (.key members) [])
  left : ∃ f : Fault, f.violation.isEnd = true ∧ finish s = ⟨leaveObject f members stack, false⟩

/-- What reading a text of a phrase comes to, and where it stands on the way. -/
def Reads (S : Numeral → List Char → Prop) : Phrase → List Char → Prop
  | .value t, cs => ∀ (stack : List Frame) (s : State) (C : State → Prop), Awaits stack s → C s →
    (∀ s', ValueCut S t stack s' → C s') → ∃ s', Holds t stack s' ∧ Passes C s cs s'
  | .items ts, cs =>
    ∀ (items : List Tree) (stack : List Frame) (s : State), AwaitsItem items stack s →
    Passes (ItemsCut S ts items stack) s cs (deliver (.array (items.reverse ++ ts) none) stack)
  | .members ms, cs => ∀ (members : List (Quoted × Tree)) (stack : List Frame) (s : State),
    AwaitsKey members stack s → Passes (MembersCut S ms members stack) s cs
      (deliver (.object (members.reverse ++ ms) none) stack)

theorem awaits_value (stack : List Frame) : Awaits stack (.reading stack (.between .value)) where
  blank c hc := by simp [step, stepOutside, stepMode, hc]
  start c hc _ := by simp [step, stepOutside, stepMode, hc, stepGap]

theorem awaitsItem_first (stack : List Frame) :
    AwaitsItem [] stack (.reading stack (.between .firstItem)) where
  awaits := ⟨fun c hc => by simp [step, stepOutside, stepMode, hc],
    fun c hc hclose => by simp [step, stepOutside, stepMode, hc, stepGap, hclose]⟩
  left := ⟨.arrayEnds, rfl, rfl⟩

theorem awaitsItem_next (items : List Tree) (stack : List Frame) :
    AwaitsItem items stack (.reading stack (.between (.nextItem items))) where
  awaits := ⟨fun c hc => by simp [step, stepOutside, stepMode, hc],
    fun c hc hclose => by simp [step, stepOutside, stepMode, hc, stepGap, hclose]⟩
  left := ⟨.itemEnds, rfl, rfl⟩

theorem awaitsKey_first (stack : List Frame) :
    AwaitsKey [] stack (.reading stack (.between .firstKey)) where
  blank c hc := by simp [step, stepOutside, stepMode, hc]
  quote := rfl
  left := ⟨.objectEnds, rfl, rfl⟩

theorem awaitsKey_next (members : List (Quoted × Tree)) (stack : List Frame) :
    AwaitsKey members stack (.reading stack (.between (.nextKey members))) where
  blank c hc := by simp [step, stepOutside, stepMode, hc]
  quote := rfl
  left := ⟨.keyEnds, rfl, rfl⟩

/-! Values of one token -/

theorem valueCut_broken (t : Tree) {f : Fault} (hf : f.violation.isEnd = true)
    (hs : finish s = ⟨enclose f (.broken f) stack, false⟩) : ValueCut S t stack s :=
  ⟨.broken f, .nothing hf, .inl ⟨f, hf, hs⟩⟩

theorem reads_word {t : Tree} {c : Char} {cs : List Char} (hcs : cs ≠ [])
    (hblank : isBlank c = false) (hclose : c ≠ ']')
    (hstart : ∀ stack, startValue stack c = .reading stack (.word cs t)) :
    Reads S (.value t) (c :: cs) := by
  intro stack s C hw hC hcut
  have hfirst : step s c = .reading stack (.word cs t) :=
    (hw.start c hblank hclose).trans (hstart stack)
  have hword : Passes C (.reading stack (.word cs t)) cs (deliver t stack) :=
    passes_word hcs fun rest => hcut _ (valueCut_broken t (f := .wordEnds) rfl rfl)
  exact ⟨_, holds_deliver t stack, .cons hC (hfirst ▸ hword)⟩

theorem reads_number (hS : ∀ n cs, S n cs → Scans n cs) {n : Numeral} {cs : List Char}
    (h : S n cs) : Reads S (.value (.number n)) cs := by
  intro stack s C hw hC hcut
  have hnumber := hw.passes_number (hS n cs h) hC fun ds rest k m hcs hrest hds => by
    refine hcut _ ?_
    by_cases hk : k.isWhole = true
    · exact ⟨.number m, .number (hcs ▸ h) hrest ⟨k, hk, hds⟩, .inr (holds_number hk m stack)⟩
    · exact valueCut_broken _ (f := .numberEnds) rfl (by simp [finish, hk, cutOff])
  obtain ⟨part, hwhole, hpasses⟩ := hnumber
  exact ⟨_, holds_number hwhole n stack, hpasses⟩

theorem reads_string {ps : List Piece} {cs : List Char} (hq : Quotes ps cs) :
    Reads S (.value (.string ⟨ps, none⟩)) ('"' :: cs) := by
  intro stack s C hw hC hcut
  have hfirst : step s '"' = .reading stack (.string .value []) := hw.start '"' rfl nofun
  have hpasses := hq.passes (C := C) stack .value [] fun ps' rest s hps hs => by
    refine hcut s ⟨.string ⟨ps', some .stringEnds⟩, hps ▸ .string, .inl ⟨.stringEnds, rfl, ?_⟩⟩
    rw [hs]
    simp [leaveQuoted]
  exact ⟨_, holds_deliver _ stack, .cons hC (hfirst ▸ hpasses)⟩

/-! Arrays -/

theorem valueCut_of_itemsCut {ts : List Tree} (h : ItemsCut S ts [] stack s) :
    ValueCut S (.array ts none) stack s := by
  obtain ⟨f, ts', hf, hc, hs⟩ := h
  exact ⟨.array ts' (some f), .array hf hc, .inl ⟨f, hf, by simpa [leaveArray] using hs⟩⟩

theorem itemsCut_of_awaits {ts items : List Tree} (hw : AwaitsItem items stack s) :
    ItemsCut S ts items stack s := by
  obtain ⟨f, hf, hs⟩ := hw.left
  exact ⟨f, [], hf, .noItems, hs⟩

theorem itemsCut_of_valueCut {t : Tree} {ts items : List Tree}
    (h : ValueCut S t (.array items :: stack) s) : ItemsCut S (t :: ts) items stack s := by
  obtain ⟨t', hc, ⟨f, hf, hs⟩ | hh⟩ := h
  · exact ⟨f, [t'], hf, .item hc, by simpa [leaveArray, enclose] using hs⟩
  · exact ⟨.arrayEnds, [t'], rfl, .item hc, hh.left⟩

theorem itemsCut_of_next {t : Tree} {ts items : List Tree}
    (h : ItemsCut S ts (t :: items) stack s) : ItemsCut S (t :: ts) items stack s := by
  obtain ⟨f, ts', hf, hc, hs⟩ := h
  exact ⟨f, t :: ts', hf, .laterItem hc, by simpa using hs⟩

theorem passes_item {t : Tree} (ts : List Tree) {items : List Tree} {before cs after : List Char}
    {c : Char} (hw : AwaitsItem items stack s) (hb : Blank before) (ht : Reads S (.value t) cs)
    (ha : Blank after) (hc : endsNumber c = true) :
    Passes (ItemsCut S (t :: ts) items stack) s
      (before ++ (cs ++ (after ++ [c]))) (stepOutside (deliver t (.array items :: stack)) c) := by
  have hstart : ItemsCut S (t :: ts) items stack s := itemsCut_of_awaits hw
  obtain ⟨s', hh, hvalue⟩ := ht _ s _ hw.awaits hstart fun _ hcut => itemsCut_of_valueCut hcut
  have hafter := hh.passes (C := ItemsCut S (t :: ts) items stack) ha hc fun s hs =>
    ⟨.arrayEnds, [t], rfl, .laterItem .noItems, hs⟩
  exact (passes_blanks hb hw.awaits.blank hstart).append (hvalue.append hafter)

theorem reads_emptyArray {bs : List Char} (hb : Blank bs) :
    Reads S (.value (.array [] none)) ('[' :: (bs ++ [']'])) := by
  intro stack s C hw hC hcut
  have hfirst : step s '[' = .reading stack (.between .firstItem) := hw.start '[' rfl nofun
  have hwait := awaitsItem_first stack
  have hCfirst := hcut _ (valueCut_of_itemsCut (itemsCut_of_awaits hwait))
  have hlast := Passes.single (c := ']') hCfirst
  exact ⟨_, holds_deliver _ stack,
    .cons hC (hfirst ▸ (passes_blanks hb hwait.awaits.blank hCfirst).append hlast)⟩

theorem reads_array {ts : List Tree} {cs : List Char} (h : Reads S (.items ts) cs) :
    Reads S (.value (.array ts none)) ('[' :: cs) := by
  intro stack s C hw hC hcut
  have hfirst : step s '[' = .reading stack (.between .firstItem) := hw.start '[' rfl nofun
  have hitems := (h [] stack _ (awaitsItem_first stack)).mono fun s' hs' =>
    hcut s' (valueCut_of_itemsCut hs')
  exact ⟨_, holds_deliver _ stack, .cons hC (hfirst ▸ hitems)⟩

theorem reads_lastItem {t : Tree} {before cs after : List Char} (hb : Blank before)
    (ht : Reads S (.value t) cs) (ha : Blank after) :
    Reads S (.items [t]) (before ++ (cs ++ (after ++ [']']))) := by
  intro items stack s hw
  have hitem := passes_item [] hw hb ht ha (c := ']') rfl
  simpa [deliver, stepOutside, stepMode, isBlank, stepGap, stepAfterItem] using hitem

theorem reads_item {t : Tree} {ts : List Tree} {before cs after rest : List Char}
    (hb : Blank before) (ht : Reads S (.value t) cs) (ha : Blank after)
    (h : Reads S (.items ts) rest) :
    Reads S (.items (t :: ts)) (before ++ (cs ++ (after ++ ',' :: rest))) := by
  intro items stack s hw
  have hitem := passes_item ts hw hb ht ha (c := ',') rfl
  have hrest := (h (t :: items) stack _ (awaitsItem_next _ stack)).mono
    fun _ hcut => itemsCut_of_next hcut
  simpa using hitem.append hrest

/-! Objects -/

theorem valueCut_of_membersCut {ms : List (Quoted × Tree)} (h : MembersCut S ms [] stack s) :
    ValueCut S (.object ms none) stack s := by
  obtain ⟨f, ms', hf, hc, hs⟩ := h
  exact ⟨.object ms' (some f), .object hf hc, .inl ⟨f, hf, by simpa [leaveObject] using hs⟩⟩

theorem membersCut_of_awaits {ms members : List (Quoted × Tree)} (hw : AwaitsKey members stack s) :
    MembersCut S ms members stack s := by
  obtain ⟨f, hf, hs⟩ := hw.left
  exact ⟨f, [], hf, .noMembers, hs⟩

theorem membersCut_of_valueCut {key : Quoted} {t : Tree} {ms members : List (Quoted × Tree)}
    (h : ValueCut S t (.object members key :: stack) s) :
    MembersCut S ((key, t) :: ms) members stack s := by
  obtain ⟨t', hc, ⟨f, hf, hs⟩ | hh⟩ := h
  · exact ⟨f, [(key, t')], hf, .member hc, by simpa [leaveObject, enclose] using hs⟩
  · exact ⟨.objectEnds, [(key, t')], rfl, .member hc, hh.left⟩

theorem membersCut_of_next {m : Quoted × Tree} {ms members : List (Quoted × Tree)}
    (h : MembersCut S ms (m :: members) stack s) : MembersCut S (m :: ms) members stack s := by
  obtain ⟨f, ms', hf, hc, hs⟩ := h
  exact ⟨f, m :: ms', hf, .laterMember hc, by simpa using hs⟩

theorem passes_key {ps : List Piece} {t : Tree} (ms : List (Quoted × Tree))
    {members : List (Quoted × Tree)} {before key middle : List Char}
    (hw : AwaitsKey members stack s) (hb : Blank before) (hq : Quotes ps key) (hm : Blank middle) :
    Passes (MembersCut S ((⟨ps, none⟩, t) :: ms) members stack) s
      (before ++ '"' :: (key ++ (middle ++ [':'])))
      (.reading (.object members ⟨ps, none⟩ :: stack) (.between .value)) := by
  have hstart : MembersCut S ((⟨ps, none⟩, t) :: ms) members stack s := membersCut_of_awaits hw
  have hkey := hq.passes (C := MembersCut S ((⟨ps, none⟩, t) :: ms) members stack) stack
    (.key members) [] fun ps' rest s hps hs => by
      have hc : Cut S (.members ((⟨ps, none⟩, t) :: ms))
          (.members [(⟨ps', some .stringEnds⟩, .broken .stringEnds)]) := hps ▸ Cut.key
      exact ⟨.stringEnds, _, rfl, hc, by simpa [leaveQuoted] using hs⟩
  have hcolon : MembersCut S ((⟨ps, none⟩, t) :: ms) members stack
      (.reading stack (.between (.colon members ⟨ps, none⟩))) :=
    ⟨.colonEnds, [(_, .broken .colonEnds)], rfl, .member (.nothing rfl), rfl⟩
  have hmiddle := passes_blanks hm (fun c hc => by simp [step, stepOutside, stepMode, hc]) hcolon
  have hlast := Passes.single (c := ':') hcolon
  refine (passes_blanks hb hw.blank hstart).append (.cons hstart ?_)
  rw [hw.quote]
  exact hkey.append (hmiddle.append hlast)

theorem passes_member {ps : List Piece} {t : Tree} (ms : List (Quoted × Tree))
    {members : List (Quoted × Tree)} {before key middle space cs after : List Char} {c : Char}
    (hw : AwaitsKey members stack s) (hb : Blank before) (hq : Quotes ps key) (hm : Blank middle)
    (hs : Blank space) (ht : Reads S (.value t) cs) (ha : Blank after) (hc : endsNumber c = true) :
    Passes (MembersCut S ((⟨ps, none⟩, t) :: ms) members stack) s
      (before ++ '"' :: (key ++ (middle ++ ':' :: (space ++ (cs ++ (after ++ [c]))))))
      (stepOutside (deliver t (.object members ⟨ps, none⟩ :: stack)) c) := by
  have hkey := passes_key (S := S) (t := t) ms hw hb hq hm
  have hvalue := awaits_value (.object members ⟨ps, none⟩ :: stack)
  have hstart : MembersCut S ((⟨ps, none⟩, t) :: ms) members stack
      (.reading (.object members ⟨ps, none⟩ :: stack) (.between .value)) :=
    membersCut_of_valueCut (valueCut_broken t (f := .valueEnds) rfl rfl)
  obtain ⟨s', hh, hread⟩ := ht _ _ _ hvalue hstart fun _ hcut => membersCut_of_valueCut hcut
  have hafter := hh.passes (C := MembersCut S ((⟨ps, none⟩, t) :: ms) members stack) ha hc
    fun s hs => ⟨.objectEnds, [(_, t)], rfl, .laterMember .noMembers, hs⟩
  have hall := hkey.append ((passes_blanks hs hvalue.blank hstart).append (hread.append hafter))
  simpa using hall

theorem reads_emptyObject {bs : List Char} (hb : Blank bs) :
    Reads S (.value (.object [] none)) ('\x7b' :: (bs ++ ['\x7d'])) := by
  intro stack s C hw hC hcut
  have hfirst : step s '\x7b' = .reading stack (.between .firstKey) := hw.start '\x7b' rfl nofun
  have hwait := awaitsKey_first stack
  have hCfirst := hcut _ (valueCut_of_membersCut (membersCut_of_awaits hwait))
  have hlast := Passes.single (c := '\x7d') hCfirst
  exact ⟨_, holds_deliver _ stack,
    .cons hC (hfirst ▸ (passes_blanks hb hwait.blank hCfirst).append hlast)⟩

theorem reads_object {ms : List (Quoted × Tree)} {cs : List Char} (h : Reads S (.members ms) cs) :
    Reads S (.value (.object ms none)) ('\x7b' :: cs) := by
  intro stack s C hw hC hcut
  have hfirst : step s '\x7b' = .reading stack (.between .firstKey) := hw.start '\x7b' rfl nofun
  have hmembers := (h [] stack _ (awaitsKey_first stack)).mono fun s' hs' =>
    hcut s' (valueCut_of_membersCut hs')
  exact ⟨_, holds_deliver _ stack, .cons hC (hfirst ▸ hmembers)⟩

theorem reads_lastMember {ps : List Piece} {t : Tree} {before key middle space cs after : List Char}
    (hb : Blank before) (hq : Quotes ps key) (hm : Blank middle) (hs : Blank space)
    (ht : Reads S (.value t) cs) (ha : Blank after) : Reads S (.members [(⟨ps, none⟩, t)])
      (before ++ '"' :: (key ++ (middle ++ ':' :: (space ++ (cs ++ (after ++ ['\x7d'])))))) := by
  intro members stack s hw
  have hmember := passes_member [] hw hb hq hm hs ht ha (c := '\x7d') rfl
  simpa [deliver, stepOutside, stepMode, isBlank, stepGap, stepAfterMember] using hmember

theorem reads_member {ps : List Piece} {t : Tree} {ms : List (Quoted × Tree)}
    {before key middle space cs after rest : List Char} (hb : Blank before) (hq : Quotes ps key)
    (hm : Blank middle) (hs : Blank space) (ht : Reads S (.value t) cs) (ha : Blank after)
    (h : Reads S (.members ms) rest) : Reads S (.members ((⟨ps, none⟩, t) :: ms))
      (before ++ '"' :: (key ++ (middle ++ ':' :: (space ++ (cs ++ (after ++ ',' :: rest)))))) := by
  intro members stack s hw
  have hmember := passes_member ms hw hb hq hm hs ht ha (c := ',') rfl
  have hrest := (h ((⟨ps, none⟩, t) :: members) stack _ (awaitsKey_next _ stack)).mono
    fun _ hcut => membersCut_of_next hcut
  simpa using hmember.append hrest

/-! Whole texts -/

theorem Spells.reads (hS : ∀ n cs, S n cs → Scans n cs) {φ : Phrase} {cs : List Char}
    (h : Spells S φ cs) : Reads S φ cs := by
  induction h with
  | null => exact reads_word nofun rfl nofun fun _ => rfl
  | bool b =>
    cases b with
    | true => exact reads_word nofun rfl nofun fun _ => rfl
    | false => exact reads_word nofun rfl nofun fun _ => rfl
  | number hn => exact reads_number hS hn
  | string hq => exact reads_string hq
  | emptyArray hb => exact reads_emptyArray hb
  | array _ ih => exact reads_array ih
  | emptyObject hb => exact reads_emptyObject hb
  | object _ ih => exact reads_object ih
  | lastItem hb _ ha ih => exact reads_lastItem hb ih ha
  | item hb _ ha _ ih ihrest => exact reads_item hb ih ha ihrest
  | lastMember hb hq hm hs _ ha ih => exact reads_lastMember hb hq hm hs ih ha
  | member hb hq hm hs _ ha _ ih ihrest => exact reads_member hb hq hm hs ih ha ihrest

section

variable (hS : ∀ n cs, S n cs → Scans n cs) {t : Tree}

include hS

theorem Spells.passes {cs : List Char} (h : Spells S (.value t) cs) : ∃ s, Holds t [] s ∧
    Passes (ValueCut S t []) (.reading [] (.between .value)) cs s :=
  h.reads hS [] _ (ValueCut S t []) (awaits_value [])
    (valueCut_broken t (f := .valueEnds) rfl rfl) fun _ hcut => hcut

/-- A text is read as the tree that it spells. -/
theorem Spells.readChars_eq {cs : List Char} (h : Spells S (.value t) cs) :
    readChars cs = ⟨t, false⟩ := by
  obtain ⟨s, hh, hpasses⟩ := h.passes hS
  rw [readChars, hpasses.foldl_eq]
  exact hh.left

/-- A text that is cut is read as what the cut leaves of the tree. -/
theorem Spells.readChars_cut {cs rest : List Char} (h : Spells S (.value t) (cs ++ rest))
    (hr : rest ≠ []) : ∃ t', Cut S (.value t) (.value t') ∧ readChars cs = ⟨t', false⟩ := by
  obtain ⟨s, -, hpasses⟩ := h.passes hS
  obtain ⟨t', hc, ⟨f, -, hs⟩ | hh⟩ := hpasses.on_the_way hr
  · exact ⟨t', hc, hs⟩
  · exact ⟨t', hc, hh.left⟩

end

end Patchbay.Json
