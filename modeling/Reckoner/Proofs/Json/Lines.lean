import Reckoner.Proofs.Json.Numbers

/-!
Values on lines. The strict reader reads what is written of a value as the value, if the
numbers in it are finite: texts come back through their escapes, characters beyond 16 bits
through their surrogate pairs, and members in their order. What is written has no line
break in it, so a value with a line feed behind it is one line.
-/

namespace Reckoner.Text

namespace JsonReading

theorem hexValue?_digitChar : ∀ d < 16, hexValue? (Nat.digitChar d) = some d := by
  decide

theorem units_digit (d : Nat) (hd : d < 16) (more value : Nat) (rest : List Char) :
    units (.unit (more + 1) value) (Nat.digitChar d :: rest) =
      units (.unit more (16 * value + d)) rest := by
  simp only [units, hexValue?_digitChar d hd]

theorem units_lastDigit (d : Nat) (hd : d < 16) (value : Nat) (rest : List Char) :
    units (.unit 0 value) (Nat.digitChar d :: rest) =
      (units .plain rest).map (Prod.map ((16 * value + d) :: ·) id) := by
  simp only [units, hexValue?_digitChar d hd]

/-- The escape of a unit is read as the unit. -/
theorem units_unitEscape {n : Nat} (h : n < 0x10000) (rest : List Char) :
    units .plain (Json.unitEscape n ++ rest) = (units .plain rest).map (Prod.map (n :: ·) id) := by
  have hmark : units .plain (Json.unitEscape n ++ rest) =
      units (.unit 3 0) (hexDigits 4 n ++ rest) := rfl
  rw [hmark]
  simp only [hexDigits, List.nil_append, List.cons_append]
  rw [units_digit _ (Nat.mod_lt _ (by decide)), units_digit _ (Nat.mod_lt _ (by decide)),
    units_digit _ (Nat.mod_lt _ (by decide)), units_lastDigit _ (Nat.mod_lt _ (by decide))]
  have hvalue : 16 * (16 * (16 * (16 * 0 + n / 16 / 16 / 16 % 16) + n / 16 / 16 % 16) +
      n / 16 % 16) + n % 16 = n := by omega
  rw [hvalue]

def codes (c : Char) : List Nat :=
  if c.toNat < 0x10000 then [c.toNat]
  else [0xd800 + (c.toNat - 0x10000) / 0x400, 0xdc00 + (c.toNat - 0x10000) % 0x400]

theorem toNat_lt (c : Char) : c.toNat < 0x110000 := by
  rcases c.valid with h | h
  · exact Nat.lt_trans h (by decide)
  · exact h.2

theorem units_escape {c : Char} {u : Nat} (hc : c ≠ 'u') (h : escapeValue? c = some u)
    (rest : List Char) :
    units .plain ('\\' :: c :: rest) = (units .plain rest).map (Prod.map (u :: ·) id) := by
  have hmark : units .plain ('\\' :: c :: rest) = units .escape (c :: rest) := rfl
  have hne : (c == 'u') = false := beq_false_of_ne hc
  rw [hmark, units, hne, h]
  rfl

/-- What is written of a character is read as its code points. -/
theorem units_escaped (c : Char) (rest : List Char) :
    units .plain (Json.escaped c ++ rest) =
      (units .plain rest).map (Prod.map (codes c ++ ·) id) := by
  unfold Json.escaped
  split
  · rename_i hc
    simp only [Bool.or_eq_true, beq_iff_eq] at hc
    rcases hc with rfl | rfl
    · exact units_escape (by decide) rfl rest
    · exact units_escape (by decide) rfl rest
  rename_i hmark
  iterate 5
    split
    · rename_i hc
      obtain rfl := eq_of_beq hc
      exact units_escape (by decide) rfl rest
  split
  · rename_i hc
    simp only [Bool.and_eq_true, decide_eq_true_eq] at hc
    obtain ⟨hquote, hslash⟩ : (c == '\x22') = false ∧ (c == '\\') = false := by
      simpa using hmark
    have hcodes : codes c = [c.toNat] := if_pos (by omega)
    rw [List.singleton_append, units, hquote, hslash, if_neg (by decide), if_neg (by decide),
      if_neg (by omega), hcodes]
    rfl
  · have hlt := toNat_lt c
    simp only [Json.charEscape, codes]
    split
    · rename_i hc
      exact units_unitEscape hc rest
    · rw [List.append_assoc, units_unitEscape (by omega), units_unitEscape (by omega),
        Option.map_map]
      rfl

theorem characters?_codes (c : Char) (us : List Nat) :
    characters? (codes c ++ us) = (characters? us).map (c :: ·) := by
  unfold codes
  split
  · have hvalid : c.toNat.isValidChar := c.valid
    have hhigh : isHighSurrogate c.toNat = false := by
      rcases hvalid with h | ⟨h, -⟩ <;> simp [isHighSurrogate] <;> omega
    cases us with
    | nil => simp [characters?, hvalid]
    | cons u us => simp [characters?, hvalid, hhigh]
  · have hlt := toNat_lt c
    have hhigh : isHighSurrogate (0xd800 + (c.toNat - 0x10000) / 0x400) = true := by
      simp [isHighSurrogate]
      omega
    have hlow : isLowSurrogate (0xdc00 + (c.toNat - 0x10000) % 0x400) = true := by
      simp [isLowSurrogate]
      omega
    have hcode : 0x10000 + (0xd800 + (c.toNat - 0x10000) / 0x400 - 0xd800) * 0x400 +
        (0xdc00 + (c.toNat - 0x10000) % 0x400 - 0xdc00) = c.toNat := by omega
    simp only [List.cons_append, List.nil_append, characters?, hhigh, hlow, if_true, hcode,
      Char.ofNat_toNat]

/-- A text in its marks is read as the text. -/
theorem text?_escaped (value : String) (rest : List Char) :
    text? (value.toList.flatMap Json.escaped ++ '\x22' :: rest) = some (value, rest) := by
  have hunits (cs : List Char) : units .plain (cs.flatMap Json.escaped ++ '\x22' :: rest) =
      some (cs.flatMap codes, rest) := by
    induction cs with
    | nil => rfl
    | cons c cs ih =>
      rw [List.flatMap_cons, List.append_assoc, units_escaped, ih]
      rfl
  have hcharacters (cs : List Char) : characters? (cs.flatMap codes) = some cs := by
    induction cs with
    | nil => rfl
    | cons c cs ih =>
      rw [List.flatMap_cons, characters?_codes, ih]
      rfl
  simp only [text?, hunits, hcharacters, Option.map_some, String.ofList_toList]

end JsonReading

def Unbroken (text : List Char) : Prop := ∀ c ∈ text, isSpacing c = true → c = ' '

namespace Unbroken

variable {text text' : List Char}

theorem append (h : Unbroken text) (h' : Unbroken text') : Unbroken (text ++ text') :=
  fun c hc => (List.mem_append.mp hc).elim (h c) (h' c)

theorem cons {c : Char} (hc : isSpacing c = true → c = ' ') (h : Unbroken text) :
    Unbroken (c :: text) :=
  List.forall_mem_cons.mpr ⟨hc, h⟩

theorem of_any (h : text.any isSpacing = false) : Unbroken text :=
  fun c hc hspacing => absurd hspacing (List.any_eq_false.mp h c hc)

theorem of_isSpacing (h : ∀ c ∈ text, isSpacing c = false) : Unbroken text :=
  of_any (List.any_eq_false.mpr fun c hc => by simp [h c hc])

theorem hexDigits (count n : Nat) : Unbroken (hexDigits count n) := by
  have hdigit : ∀ d < 16, isSpacing (Nat.digitChar d) = false := by decide
  induction count generalizing n with
  | zero => exact List.forall_mem_nil _
  | succ count ih =>
    refine (ih (n / 16)).append (of_isSpacing fun c hc => ?_)
    obtain rfl := List.mem_singleton.mp hc
    exact hdigit _ (Nat.mod_lt _ (by decide))

theorem signed {w : Written} (h : w.Plain) (sign : Sign) :
    Unbroken (Numeral.signed sign w.text) := by
  have htext : Unbroken w.text := of_isSpacing fun c hc => Written.isSpacing_of_mem_text h hc
  cases sign with
  | plus => exact htext
  | minus => exact htext.cons (by decide)

end Unbroken

/-- Among the characters that are written as they are, the space is the only blank. -/
theorem eq_space_of_printable {c : Char} (hlow : 0x20 ≤ c.toNat) (hhigh : c.toNat < 0x7f)
    (h : isSpacing c = true) : c = ' ' := by
  have hapart : ∀ range ∈ blankRanges, range.2 < 0x20 ∨ range = (0x20, 0x20) ∨ 0x7f ≤ range.1 := by
    decide
  simp only [isSpacing, List.any_eq_true, Bool.and_eq_true, decide_eq_true_eq] at h
  obtain ⟨range, hrange, hle, hge⟩ := h
  have hspace : c.toNat = ' '.toNat := by
    rcases hapart range hrange with hbelow | rfl | habove
    · omega
    · exact Nat.le_antisymm hge hle
    · omega
  exact Char.toNat_inj.mp hspace

namespace Json

theorem unbroken_unitEscape (n : Nat) : Unbroken (unitEscape n) :=
  ((Unbroken.hexDigits 4 n).cons (by decide)).cons (by decide)

theorem unbroken_escaped (c : Char) : Unbroken (escaped c) := by
  unfold escaped
  split
  · rename_i hc
    simp only [Bool.or_eq_true, beq_iff_eq] at hc
    rcases hc with rfl | rfl <;> exact .of_any (by decide)
  iterate 5
    split
    · exact .of_any (by decide)
  split
  · rename_i hc
    simp only [Bool.and_eq_true, decide_eq_true_eq] at hc
    exact .cons (eq_space_of_printable hc.1 hc.2) (List.forall_mem_nil _)
  · unfold charEscape
    split
    · exact unbroken_unitEscape _
    · exact (unbroken_unitEscape _).append (unbroken_unitEscape _)

theorem unbroken_escapedText (cs : List Char) : Unbroken (cs.flatMap escaped) := by
  intro c hc
  obtain ⟨c', -, hmem⟩ := List.mem_flatMap.mp hc
  exact unbroken_escaped c' c hmem

/-- Induction with all the members of an object at once. -/
@[elab_as_elim]
theorem induct {motive : Json → Prop} (null : motive null) (integer : ∀ n, motive (integer n))
    (number : ∀ x, motive (number x)) (text : ∀ t, motive (text t))
    (object : ∀ members, (∀ m ∈ members, motive m.2) → motive (object members))
    (value : Json) : motive value :=
  @Json.rec motive (fun members => ∀ m ∈ members, motive m.2) (fun m => motive m.2) null integer
    number text object (fun _ h => absurd h List.not_mem_nil)
    (fun _ _ hhead htail => List.forall_mem_cons.mpr ⟨hhead, htail⟩) (fun _ _ h => h) value

mutual

def IsFinite : Json → Prop
  | number x => x.isFinite = true
  | object members => AreFinite members
  | _ => True

def AreFinite : List (String × Json) → Prop
  | [] => True
  | (_, value) :: rest => IsFinite value ∧ AreFinite rest

end

theorem AreFinite.of_mem {members : List (String × Json)} {m : String × Json}
    (h : AreFinite members) (hm : m ∈ members) : m.2.IsFinite := by
  induction members with
  | nil => exact absurd hm List.not_mem_nil
  | cons member members ih =>
    obtain ⟨key, value⟩ := member
    rcases List.mem_cons.mp hm with rfl | hm
    · exact h.1
    · exact ih h.2 hm

mutual

def weight : Json → Nat
  | object members => weights members + 1
  | _ => 1

def weights : List (String × Json) → Nat
  | [] => 0
  | (_, value) :: rest => weight value + weights rest + 1

end

def membersText (members : List (String × Json)) (rest : List Char) : List Char :=
  (", ".intercalate (lines members)).toList ++ '\x7d' :: rest

theorem toList_quoted (value : String) :
    (quoted value).toList = '\x22' :: (value.toList.flatMap escaped ++ ['\x22']) := by
  rw [quoted, String.toList_ofList]
  rfl

theorem membersText_cons (key : String) (value : Json) (members : List (String × Json))
    (rest : List Char) :
    membersText ((key, value) :: members) rest =
      '\x22' :: (key.toList.flatMap escaped ++ '\x22' :: ':' :: ' ' ::
        ((line value).toList ++
          if members.isEmpty then '\x7d' :: rest else ',' :: ' ' :: membersText members rest)) := by
  cases members with
  | nil => simp [membersText, lines, toList_quoted]
  | cons member members =>
    simp [membersText, lines, toList_quoted, String.intercalate_cons_cons]

theorem line_object (members : List (String × Json)) (rest : List Char) :
    (line (object members)).toList ++ rest = '\x7b' :: membersText members rest := by
  simp [line, membersText]

theorem toList_line_object (members : List (String × Json)) :
    (line (object members)).toList = '\x7b' :: membersText members [] := by
  rw [← line_object, List.append_nil]

theorem line_ne_nil_of_signed {w : Written} {sign : Sign} {value : Json} (h : w.Plain)
    (htext : (line value).toList = Numeral.signed sign w.text) : (line value).toList ≠ [] := by
  obtain ⟨c, cs, hcons, -⟩ := JsonReading.exists_first_signed h sign
  rw [htext, hcons]
  exact List.cons_ne_nil c cs

theorem weights_lt {members : List (String × Json)}
    (h : ∀ m ∈ members, weight m.2 ≤ (line m.2).toList.length) :
    weights members < (membersText members []).length := by
  induction members with
  | nil => decide
  | cons member members ih =>
    obtain ⟨key, value⟩ := member
    obtain ⟨hhead, hmembers⟩ := List.forall_mem_cons.mp h
    have hvalue : weight value ≤ (line value).toList.length := hhead
    have hrest := ih hmembers
    rw [membersText_cons, weights]
    simp only [List.length_cons, List.length_append]
    split
    · rename_i hlast
      rw [List.isEmpty_iff.mp hlast, weights]
      omega
    · simp only [List.length_cons]
      omega

/-- The text of a value is at least as long as the depth it needs. -/
theorem weight_le {value : Json} (h : value.IsFinite) :
    weight value ≤ (line value).toList.length := by
  induction value using induct with
  | null => decide
  | integer n =>
    obtain ⟨sign, w, hstrict, htext⟩ := Numeral.exists_strict_toString n
    exact List.length_pos_iff.mpr (line_ne_nil_of_signed hstrict.toPlain htext)
  | number x =>
    obtain ⟨sign, w, hstrict, -, htext⟩ := Numeral.exists_strict_text h
    exact List.length_pos_iff.mpr (line_ne_nil_of_signed hstrict.toPlain htext)
  | text t =>
    rw [line, toList_quoted]
    exact Nat.succ_pos _
  | object members ih =>
    have hmembers := weights_lt fun m hm => ih m hm (AreFinite.of_mem h hm)
    rw [toList_line_object, weight, List.length_cons]
    omega

theorem unbroken_membersText {members : List (String × Json)}
    (h : ∀ m ∈ members, Unbroken (line m.2).toList) : Unbroken (membersText members []) := by
  induction members with
  | nil => exact .of_any (by decide)
  | cons member members ih =>
    obtain ⟨key, value⟩ := member
    obtain ⟨hvalue, hmembers⟩ := List.forall_mem_cons.mp h
    rw [membersText_cons]
    refine .cons (by decide) ((unbroken_escapedText _).append ?_)
    refine .cons (by decide) (.cons (by decide) (.cons (by decide) (hvalue.append ?_)))
    split
    · exact .of_any (by decide)
    · exact .cons (by decide) (.cons (by decide) (ih hmembers))

/-- A value with finite numbers is written on one line. -/
theorem unbroken_line {value : Json} (h : value.IsFinite) : Unbroken (line value).toList := by
  induction value using induct with
  | null => exact .of_any (by decide)
  | integer n =>
    obtain ⟨sign, w, hstrict, htext⟩ := Numeral.exists_strict_toString n
    rw [line, htext]
    exact .signed hstrict.toPlain sign
  | number x =>
    obtain ⟨sign, w, hstrict, -, htext⟩ := Numeral.exists_strict_text h
    rw [line, htext]
    exact .signed hstrict.toPlain sign
  | text t =>
    rw [line, toList_quoted]
    exact .cons (by decide) ((unbroken_escapedText _).append (.of_any (by decide)))
  | object members ih =>
    have hmembers := unbroken_membersText fun m hm => ih m hm (AreFinite.of_mem h hm)
    rw [toList_line_object]
    exact .cons (by decide) hmembers

end Json

namespace JsonReading

open Json

theorem skip_cons {c : Char} (h : isLayout c = false) (text : List Char) :
    skip (c :: text) = c :: text := by
  simp [skip, h]

theorem value?_space (depth : Nat) (text : List Char) :
    value? depth (' ' :: text) = value? depth text := by
  cases depth <;> rfl

theorem members?_space (depth : Nat) (text : List Char) :
    members? depth (' ' :: text) = members? depth text := by
  cases depth <;> rfl

/-- The value is read where it is written, given depth enough, before anything that cannot go
on a number. -/
def ReadsBack (value : Json) : Prop :=
  ∀ (depth : Nat) (rest : List Char), value.weight ≤ depth → Lexer.Stops rest →
    value? depth ((line value).toList ++ rest) = some (value, rest)

/-- Every value needs some depth. -/
theorem ReadsBack.of_succ {value : Json}
    (h : ∀ (depth : Nat) (rest : List Char), value.weight ≤ depth + 1 → Lexer.Stops rest →
      value? (depth + 1) ((line value).toList ++ rest) = some (value, rest)) :
    ReadsBack value := by
  intro depth rest hdepth hrest
  have hpos : 0 < value.weight := by cases value <;> exact Nat.succ_pos _
  obtain ⟨depth, rfl⟩ : ∃ d, depth = d + 1 := ⟨depth - 1, by omega⟩
  exact h depth rest hdepth hrest

theorem members?_membersText {members : List (String × Json)} (hne : members ≠ [])
    (h : ∀ m ∈ members, ReadsBack m.2) (depth : Nat) (rest : List Char)
    (hdepth : weights members ≤ depth) :
    members? depth (membersText members rest) = some (members, rest) := by
  induction members generalizing depth with
  | nil => exact absurd rfl hne
  | cons member members ih =>
    obtain ⟨key, value⟩ := member
    obtain ⟨hhead, hmembers⟩ := List.forall_mem_cons.mp h
    have hvalue : ReadsBack value := hhead
    rw [weights] at hdepth
    obtain ⟨depth, rfl⟩ : ∃ d, depth = d + 1 := ⟨depth - 1, by omega⟩
    have hquote : isLayout '\x22' = false := by decide
    have hcolon : isLayout ':' = false := by decide
    have hcomma : isLayout ',' = false := by decide
    have hbrace : isLayout '\x7d' = false := by decide
    rw [membersText_cons, members?, skip_cons hquote]
    by_cases hlast : members = []
    · have hstops : Lexer.Stops ('\x7d' :: rest) := Lexer.stops_cons (by decide) rest
      have hread := hvalue depth ('\x7d' :: rest) (by omega) hstops
      subst hlast
      simp only [List.isEmpty_nil, if_true, text?_escaped, skip_cons hcolon, value?_space, hread,
        skip_cons hbrace]
    · have hstops : Lexer.Stops (',' :: ' ' :: membersText members rest) :=
        Lexer.stops_cons (by decide) _
      have hread := hvalue depth (',' :: ' ' :: membersText members rest) (by omega) hstops
      have hnext := ih hlast hmembers depth (by omega)
      have hsome : members.isEmpty = false := List.isEmpty_eq_false_iff.mpr hlast
      simp only [hsome, Bool.false_eq_true, if_false, text?_escaped, skip_cons hcolon,
        value?_space, hread, skip_cons hcomma, members?_space, hnext]
      rfl

theorem value?_text (depth : Nat) (rest : List Char) :
    value? (depth + 1) ('\x22' :: rest) = (text? rest).map (Prod.map .text id) := by
  rw [value?, skip_cons (by decide)]
  rfl

theorem value?_empty (depth : Nat) (rest : List Char) :
    value? (depth + 1) ('\x7b' :: membersText [] rest) = some (.object [], rest) := by
  have hmembers : membersText [] rest = '\x7d' :: rest := rfl
  rw [value?, skip_cons (by decide)]
  simp only [hmembers, skip_cons (show isLayout '\x7d' = false by decide)]

theorem value?_object {members : List (String × Json)} (hne : members ≠ []) (depth : Nat)
    (rest : List Char) :
    value? (depth + 1) ('\x7b' :: membersText members rest) =
      (members? depth (membersText members rest)).map (Prod.map .object id) := by
  obtain ⟨⟨key, value⟩, members, rfl⟩ := List.exists_cons_of_ne_nil hne
  rw [value?, skip_cons (by decide), membersText_cons]
  simp only [skip_cons (show isLayout '\x22' = false by decide)]
  rfl

/-- What is written of a value with finite numbers is read as the value. -/
theorem readsBack {value : Json} (h : value.IsFinite) : ReadsBack value := by
  induction value using induct with
  | null => exact .of_succ fun depth rest _ _ => rfl
  | integer n =>
    refine .of_succ fun depth rest _ hrest => ?_
    obtain ⟨sign, w, hstrict, htext⟩ := Numeral.exists_strict_toString n
    rw [line, htext, value?_signed hstrict sign hrest, ← htext, ofToken?_toString]
    rfl
  | number x =>
    refine .of_succ fun depth rest _ hrest => ?_
    obtain ⟨sign, w, hstrict, -, htext⟩ := Numeral.exists_strict_text h
    rw [line, htext, value?_signed hstrict sign hrest, ← htext, ofToken?_text h]
    rfl
  | text t =>
    refine .of_succ fun depth rest _ _ => ?_
    rw [line, toList_quoted, List.cons_append, List.append_assoc, List.singleton_append,
      value?_text, text?_escaped]
    rfl
  | object members ih =>
    refine .of_succ fun depth rest hdepth _ => ?_
    have hmembers : ∀ m ∈ members, ReadsBack m.2 := fun m hm => ih m hm (AreFinite.of_mem h hm)
    have hweights : weights members ≤ depth := Nat.le_of_succ_le_succ hdepth
    rw [line_object]
    by_cases hnone : members = []
    · subst hnone
      exact value?_empty depth rest
    · rw [value?_object hnone, members?_membersText hnone hmembers depth rest hweights]
      rfl

end JsonReading

namespace Json

/-- A line is read as the value it is the line of. -/
theorem read?_line {value : Json} (h : value.IsFinite) :
    read? (line value ++ "\n") = some value := by
  have hstops : Lexer.Stops ['\n'] := Lexer.stops_cons (by decide) []
  have hdepth : value.weight ≤ (line value ++ "\n").length := by
    have hweight := weight_le h
    rw [String.length_append, ← String.length_toList]
    omega
  have hread := JsonReading.readsBack h _ _ hdepth hstops
  rw [read?, String.toList_append]
  simp only [show "\n".toList = ['\n'] from rfl, hread]
  rfl

example : (read? "\x7b\"value\": NaN\x7d\n").isNone = true := by decide +kernel

end Json

end Reckoner.Text
