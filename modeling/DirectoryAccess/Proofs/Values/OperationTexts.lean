import DirectoryAccess.Proofs.Text.Recasing
import DirectoryAccess.Proofs.Values.Operations

/-!
# Which terms of an operation are kept

The grammar takes any run of characters of names for the attribute of a term, and any group for its
filter. Not every such pair is a valid filter. An operation is read as long as one of its terms is
valid, and then it has the valid terms only: the others are left out, and no error tells of them.
-/
namespace DirectoryAccess

open Grammar Grammar.Reader

/-! ### Words for operations -/

theorem AttributeOperation.exists_spelling {op : AttributeOperation} {word : String}
    (solid : ∀ c ∈ word.toList, Text.isBlank c = false) (named : ofName? word = some op) :
    ∃ name : String, Text.lower word.toList = Text.lower name.toList ∧ name.toList ≠ [] ∧
      (Text.lower name.toList).all Char.isAlpha = true := by
  have trimmed : Text.trimmed word = word := by
    unfold Text.trimmed
    rw [(Text.isTrimmed_of_forall solid).trim_eq, String.ofList_toList]
  unfold ofName? at named
  dsimp only at named
  rw [trimmed] at named
  split at named
  · next same => exact ⟨_, Text.sameWord_iff.mp same, by decide, by decide⟩
  split at named
  · next same =>
    rcases Bool.or_eq_true_iff.mp same with same | same
    · exact ⟨_, Text.sameWord_iff.mp same, by decide, by decide⟩
    · exact ⟨_, Text.sameWord_iff.mp same, by decide, by decide⟩
  · cases named

/-- A word without blanks that names an operation is all letters, so the grammar takes the whole of
it for the name. -/
theorem Grammar.namesOperation_iff {op : AttributeOperation} {word : String}
    (solid : ∀ c ∈ word.toList, Text.isBlank c = false) :
    NamesOperation op word.toList ↔ AttributeOperation.ofName? word = some op := by
  unfold NamesOperation
  rw [String.ofList_toList]
  refine ⟨fun h => h.2.2, fun named => ?_⟩
  obtain ⟨name, same, full, letters⟩ := AttributeOperation.exists_spelling solid named
  refine ⟨?_, ?_, named⟩
  · intro empty
    rw [empty] at same
    exact full (List.map_eq_nil_iff.mp same.symm)
  · intro c hc
    have mem : c.toLower ∈ Text.lower name.toList := same ▸ List.mem_map_of_mem hc
    rw [← Text.isAlpha_toLower]
    exact List.all_eq_true.mp letters _ mem

/-! ### What an operation makes of its terms -/

namespace FilterOperation

theorem validate_ofFilters_eq_ok_iff (op : AttributeOperation) {fs : List AttributeFilter} :
    (ofFilters op fs).validate = .ok () ↔ ∃ f ∈ fs, f.validate = .ok () := by
  obtain ⟨_, filters⟩ := ofFilters_filters op fs
  rw [validate_ofFilters_iff, filters]
  show List.isEmpty ((fs.filter isValid).map Node.leaf) = false ↔ _
  rw [List.isEmpty_map, List.isEmpty_eq_false_iff_exists_mem]
  exact exists_congr fun f => List.mem_filter.trans (and_congr_right fun _ => decide_eq_true_iff)

theorem ofTree_eq_ok_iff {t : OperationTree} {r : FilterOperation} :
    ofTree t = .ok r ↔
      r = ofFilters t.operation (t.terms.map (fun p => .ofTexts p.1 p.2)) ∧
        ∃ f ∈ t.terms.map (fun p => AttributeFilter.ofTexts p.1 p.2), f.validate = .ok () := by
  rw [← validate_ofFilters_eq_ok_iff t.operation]
  exact checked_ofFilters_eq_ok_iff

end FilterOperation

/-! ### Texts of operations -/

/-- A word in the place of an operation's name, and pairs of a name and a group behind it. -/
structure OperationText where
  word : String
  pairs : List (String × String)

namespace OperationText

/-- The parts are such as the grammar takes them: no equals sign and no blank in the word, at least
one pair, and in each pair a run of characters of names and a group. -/
structure Tokens (o : OperationText) : Prop where
  word : ∀ c ∈ o.word.toList, c ≠ '=' ∧ Text.isBlank c = false
  full : o.pairs ≠ []
  pairs : ∀ p ∈ o.pairs, p.1.toList ≠ [] ∧
    (∀ c ∈ p.1.toList, AttributeType.isNameChar c = true) ∧ IsGroup p.2.toList

instance (o : OperationText) : Decidable o.Tokens :=
  decidable_of_iff
    (o.word.toList.all (fun c => c != '=' && !Text.isBlank c) = true ∧ o.pairs ≠ [] ∧
      o.pairs.all (fun p => !p.1.toList.isEmpty && p.1.toList.all AttributeType.isNameChar &&
        decide (IsGroup p.2.toList)) = true)
    (by
      simp only [List.all_eq_true, Bool.and_eq_true, bne_iff_ne, Bool.not_eq_true', ne_eq,
        List.isEmpty_eq_false_iff, decide_eq_true_eq, and_assoc]
      exact ⟨fun ⟨word, full, pairs⟩ => ⟨word, full, pairs⟩,
        fun h => ⟨h.word, h.full, h.pairs⟩⟩)

def termText (p : String × String) : String :=
  p.1 ++ ":" ++ p.2

def text (o : OperationText) : String :=
  o.word ++ "=" ++ " && ".intercalate (o.pairs.map termText)

def filters (o : OperationText) : List AttributeFilter :=
  o.pairs.map (fun p => .ofTexts p.1 p.2)

/-- What the grammar makes of the text, if the word names an operation. -/
def tree? (o : OperationText) : Option OperationTree :=
  (AttributeOperation.ofName? o.word).map (⟨·, o.pairs⟩)

/-- The word names an operation, and one of the pairs at least is a valid filter. -/
def Acceptable (o : OperationText) : Prop :=
  (AttributeOperation.ofName? o.word).isSome = true ∧ ∃ f ∈ o.filters, f.validate = .ok ()

/-- What is made of the text where it is accepted: the fail-soft builder of operations gets all the
pairs. -/
def Yields (o : OperationText) (r : FilterOperation) : Prop :=
  ∃ op, AttributeOperation.ofName? o.word = some op ∧ r = .ofFilters op o.filters ∧
    ∃ f ∈ o.filters, f.validate = .ok ()

/-- The operation is the one that the word names, with the pairs that are valid filters, in their
order. -/
def Keeps (o : OperationText) (r : FilterOperation) : Prop :=
  AttributeOperation.ofName? o.word = some r.operation ∧
    r.filters.elements = (o.filters.filter FilterOperation.isValid).map .leaf

variable {o : OperationText}

theorem toList_text (o : OperationText) : o.text.toList =
    o.word.toList ++ '=' ::
      [' ', '&', '&', ' '].intercalate (o.pairs.map (fun p => (termText p).toList)) := by
  have equal : "=".toList = ['='] := by decide
  have bars : " && ".toList = [' ', '&', '&', ' '] := by decide
  unfold text
  simp only [String.toList_append, String.toList_intercalate, equal, bars, List.map_map,
    List.append_assoc, List.cons_append, List.nil_append]
  rfl

theorem Tokens.listed (h : o.Tokens) : Listed (WritesSign "&&") SpellsTerm o.pairs
    ([' ', '&', '&', ' '].intercalate (o.pairs.map (fun p => (termText p).toList))) := by
  have colon : ":".toList = [':'] := by decide
  have listed : Listed (WritesSign "&&") SpellsTerm (o.pairs.map id)
      ([' ', '&', '&', ' '].intercalate (o.pairs.map (fun p => (termText p).toList))) :=
    listed_intercalate ⟨[' '], [' '], by decide, isGap_blank, isGap_blank⟩ h.full fun p hp =>
      ⟨by simp [termText, colon], h.pairs p hp⟩
  rwa [List.map_id] at listed

theorem Tokens.spells (h : o.Tokens) {op : AttributeOperation}
    (named : NamesOperation op o.word.toList) : SpellsOperation ⟨op, o.pairs⟩ o.text.toList :=
  ⟨_, _, o.toList_text, named, h.listed⟩

theorem Tokens.ends (h : o.Tokens) (rest : List Char) :
    Ends Text.isGap (o.text.toList ++ rest) := by
  rw [o.toList_text, List.append_assoc]
  cases word : o.word.toList with
  | nil => exact ends_cons.mpr (by decide)
  | cons c r =>
    exact ends_cons.mpr (Text.isGap_of_not_isBlank (h.word c (by simp [word])).2)

theorem Tokens.getLast? (h : o.Tokens) : o.text.toList.getLast? = some ')' := by
  rw [o.toList_text, List.getLast?_append, List.getLast?_cons,
    h.listed.getLast? SpellsTerm.getLast?]
  rfl

/-- The text is read as the tree of all its terms and in no other way, where no further term
follows. -/
theorem Tokens.filterOperation_eq_read (h : o.Tokens) {rest mid : List Char} {t : OperationTree}
    (after : Clear ['&'] rest) :
    filterOperation (o.text.toList ++ rest) = .read t mid ↔ o.tree? = some t ∧ mid = rest := by
  have solid : ∀ c ∈ o.word.toList, Text.isBlank c = false := fun c hc => (h.word c hc).2
  have reads : ∀ op, NamesOperation op o.word.toList →
      filterOperation (o.text.toList ++ rest) = .read ⟨op, o.pairs⟩ rest := fun op named =>
    filterOperation_read (h.spells named) after
  unfold tree?
  rw [Option.map_eq_some_iff]
  constructor
  · intro read
    have named : NamesOperation t.operation o.word.toList := by
      rw [o.toList_text, List.append_assoc] at read
      exact namesOperation_of_read (fun mem => (h.word '=' mem).1 rfl) read
    rw [reads _ named] at read
    obtain ⟨same, rfl⟩ := Outcome.read.inj read
    exact ⟨⟨_, (namesOperation_iff solid).mp named, same⟩, rfl⟩
  · rintro ⟨⟨op, named, rfl⟩, rfl⟩
    exact reads op ((namesOperation_iff solid).mpr named)

theorem wholeFilterOperation_readAll_iff (h : o.Tokens) {t : OperationTree} :
    wholeFilterOperation.readAll (Text.trimEnd o.text.toList) = .ok t ↔ o.tree? = some t := by
  have bare := h.ends []
  have one : filterOperation (o.text.toList ++ []) = .read t [] ↔
      o.tree? = some t ∧ ([] : List Char) = [] := h.filterOperation_eq_read clear_nil
  rw [List.append_nil] at bare one
  have start : skipGap o.text.toList = .read () o.text.toList :=
    skipGap_eq_read.mpr ⟨[], rfl, isGap_nil, bare⟩
  rw [readAll_eq_ok, Text.trimEnd_of_getLast? h.getLast? (by decide), wholeFilterOperation,
    bind_read start, one]
  simp

theorem exists_ofTree_iff {r : FilterOperation} :
    (∃ t, o.tree? = some t ∧ FilterOperation.ofTree t = .ok r) ↔ o.Yields r := by
  unfold tree? Yields
  simp only [Option.map_eq_some_iff, FilterOperation.ofTree_eq_ok_iff]
  constructor
  · rintro ⟨_, ⟨op, named, rfl⟩, made, valid⟩
    exact ⟨op, named, made, valid⟩
  · rintro ⟨op, named, made, valid⟩
    exact ⟨_, ⟨op, named, rfl⟩, made, valid⟩

theorem exists_yields_iff : (∃ r, o.Yields r) ↔ o.Acceptable := by
  unfold Yields Acceptable
  rw [Option.isSome_iff_exists]
  constructor
  · rintro ⟨_, op, named, _, valid⟩
    exact ⟨⟨op, named⟩, valid⟩
  · rintro ⟨⟨op, named⟩, valid⟩
    exact ⟨_, op, named, rfl, valid⟩

theorem Yields.keeps {r : FilterOperation} (h : o.Yields r) : o.Keeps r := by
  obtain ⟨op, named, rfl, _⟩ := h
  obtain ⟨operation, filters⟩ := FilterOperation.ofFilters_filters op o.filters
  refine ⟨named.trans (congrArg some operation.symm), ?_⟩
  rw [filters]

theorem Tokens.read_eq_ok_iff (h : o.Tokens) {r : FilterOperation} :
    FilterOperation.read o.text = .ok r ↔ o.Yields r := by
  unfold FilterOperation.read
  rw [bind_eq_ok, ← exists_ofTree_iff]
  simp only [readText_eq_ok, wholeFilterOperation_readAll_iff h]

/-! ### Lists of operations -/

/-- The further operations of a list, each behind the sign in front of it. -/
def furtherText (others : List (Char × OperationText)) : List Char :=
  others.flatMap (fun p => p.1 :: p.2.text.toList)

/-- The text of a list of operations. -/
def listText (first : OperationText) (others : List (Char × OperationText)) : String :=
  String.ofList (first.text.toList ++ furtherText others)

/-- Each sign is a comma or a semicolon, and what follows it consists of tokens. -/
def FurtherTokens (others : List (Char × OperationText)) : Prop :=
  ∀ p ∈ others, (p.1 = ',' ∨ p.1 = ';') ∧ p.2.Tokens

theorem signOrEnd_furtherText {others : List (Char × OperationText)}
    (tokens : FurtherTokens others) : SignOrEnd (furtherText others) := by
  cases others with
  | nil => exact .inl rfl
  | cons p others => exact .inr ⟨p.1, _, rfl, (tokens p (by simp)).1⟩

theorem furtherOperation_eq_read {d : Char} (known : d = ',' ∨ d = ';') (h : o.Tokens)
    {further : Char × OperationTree} {rest mid : List Char} (after : SignOrEnd rest) :
    furtherOperation (d :: (o.text.toList ++ rest)) = .read further mid ↔
      (further.1 = d ∧ o.tree? = some further.2) ∧ mid = rest := by
  unfold furtherOperation
  rw [bind_read (operationSign_read known (h.ends rest))]
  simp only [bind_eq_read, commit_eq_read, pure_eq_read, h.filterOperation_eq_read after.clear]
  constructor
  · rintro ⟨t, _, ⟨tree, rfl⟩, rfl, rfl⟩
    exact ⟨⟨rfl, tree⟩, rfl⟩
  · rintro ⟨⟨rfl, tree⟩, rfl⟩
    exact ⟨further.2, mid, ⟨tree, rfl⟩, rfl, rfl⟩

theorem furtherOperations_eq_read {others : List (Char × OperationText)}
    (tokens : FurtherTokens others) {trees : List (Char × OperationTree)} :
    many furtherOperation (furtherText others) = .read trees [] ↔
      List.Forall₂ (fun p t => t.1 = p.1 ∧ p.2.tree? = some t.2) others trees := by
  rw [many_eq_read progresses_furtherOperation]
  induction others generalizing trees with
  | nil =>
    rw [List.forall₂_nil_left_iff]
    constructor
    · rintro (_ | ⟨first, _, _⟩)
      · rfl
      · obtain ⟨e, failed, _⟩ := furtherOperation_declines_nil
        exact absurd (first.symm.trans failed) (by simp)
    · rintro rfl
      exact .stop furtherOperation_declines_nil
  | cons p others ih =>
    obtain ⟨⟨known, one⟩, more⟩ := List.forall_mem_cons.mp tokens
    have step : ∀ {further mid}, furtherOperation (furtherText (p :: others)) = .read further mid ↔
        (further.1 = p.1 ∧ p.2.tree? = some further.2) ∧ mid = furtherText others :=
      furtherOperation_eq_read known one (signOrEnd_furtherText more)
    constructor
    · intro repeats
      cases repeats with
      | step first _ tail =>
        obtain ⟨made, rfl⟩ := step.mp first
        exact .cons made ((ih more).mp tail)
    · intro made
      cases made with
      | cons first others' =>
        have read := step.mpr ⟨first, rfl⟩
        exact .step read (progresses_furtherOperation read) ((ih more).mpr others')

/-- Behind a text that ends in a closing parenthesis, so does the whole list. -/
theorem getLast?_furtherText {others : List (Char × OperationText)} (tokens : FurtherTokens others)
    {front : List Char} (last : front.getLast? = some ')') :
    (front ++ furtherText others).getLast? = some ')' := by
  induction others generalizing front with
  | nil => simpa [furtherText] using last
  | cons p others ih =>
    obtain ⟨⟨_, one⟩, more⟩ := List.forall_mem_cons.mp tokens
    have longer : (front ++ p.1 :: p.2.text.toList).getLast? = some ')' := by
      rw [List.getLast?_append, List.getLast?_cons, one.getLast?]
      rfl
    have whole := ih more longer
    rwa [List.append_assoc] at whole

theorem exists_signed_trees {others : List (Char × OperationText)} {trees : List OperationTree}
    (h : List.Forall₂ (fun o t => o.tree? = some t) (others.map Prod.snd) trees) :
    ∃ signed : List (Char × OperationTree), trees = signed.map Prod.snd ∧
      List.Forall₂ (fun p t => t.1 = p.1 ∧ p.2.tree? = some t.2) others signed := by
  induction others generalizing trees with
  | nil =>
    obtain rfl := List.forall₂_nil_left_iff.mp h
    exact ⟨[], rfl, .nil⟩
  | cons p others ih =>
    cases h with
    | cons tree h' =>
      obtain ⟨signed, rfl, made⟩ := ih h'
      exact ⟨(p.1, _) :: signed, rfl, .cons ⟨rfl, tree⟩ made⟩

variable {first : OperationText} {others : List (Char × OperationText)}

theorem trimEnd_listText (one : first.Tokens) (more : FurtherTokens others) :
    Text.trimEnd (listText first others).toList = first.text.toList ++ furtherText others := by
  rw [listText, String.toList_ofList]
  exact Text.trimEnd_of_getLast? (getLast?_furtherText more one.getLast?) (by decide)

theorem wholeFilterOperations_readAll_iff (one : first.Tokens) (more : FurtherTokens others)
    {trees : List OperationTree} {sign : Option Char} :
    wholeFilterOperations.readAll (first.text.toList ++ furtherText others) = .ok (trees, sign) ↔
      List.Forall₂ (fun o t => o.tree? = some t) (first :: others.map Prod.snd) trees ∧
        sign = others.head?.map Prod.fst := by
  have start : skipGap (first.text.toList ++ furtherText others) =
      .read () (first.text.toList ++ furtherText others) :=
    skipGap_eq_read.mpr ⟨[], rfl, isGap_nil, one.ends _⟩
  have signs : ∀ {signed : List (Char × OperationTree)},
      List.Forall₂ (fun p t => t.1 = p.1 ∧ p.2.tree? = some t.2) others signed →
        signed.head?.map Prod.fst = others.head?.map Prod.fst := by
    intro signed made
    cases made with
    | nil => rfl
    | cons h _ => exact congrArg some h.1
  have clear := (signOrEnd_furtherText more).clear
  rw [readAll_eq_ok, wholeFilterOperations, bind_read start]
  constructor
  · intro read
    obtain ⟨t, _, hfirst, read₁⟩ := bind_eq_read.mp read
    obtain ⟨ts, _, hothers, read₂⟩ := bind_eq_read.mp read₁
    obtain ⟨same, rfl⟩ := pure_eq_read.mp read₂
    obtain ⟨rfl, rfl⟩ := Prod.mk.inj same
    obtain ⟨tree, rfl⟩ := (one.filterOperation_eq_read clear).mp hfirst
    have made := (furtherOperations_eq_read more).mp hothers
    refine ⟨.cons tree ?_, signs made⟩
    rw [List.forall₂_map_left_iff, List.forall₂_map_right_iff]
    exact made.imp fun _ _ h => h.2
  · rintro ⟨trees', rfl⟩
    cases trees' with
    | cons tree h =>
      obtain ⟨signed, rfl, made⟩ := exists_signed_trees h
      refine bind_eq_read.mpr ⟨_, _, (one.filterOperation_eq_read clear).mpr ⟨tree, rfl⟩, ?_⟩
      refine bind_eq_read.mpr ⟨signed, [], (furtherOperations_eq_read more).mpr made, ?_⟩
      exact pure_eq_read.mpr ⟨by rw [signs made], rfl⟩

theorem holds_of_yields {o : OperationText} {r : FilterOperation} (h : o.Yields r) :
    ∃ fs, r.Holds fs := by
  obtain ⟨op, named, rfl, valid⟩ := h
  exact FilterOperation.holds_of_terms ((FilterOperation.validate_ofFilters_eq_ok_iff op).mpr valid)

theorem readOperations_eq_ok_iff (one : first.Tokens) (more : FurtherTokens others)
    (list : Stack FilterOperation) :
    Stack.readOperations (listText first others) = .ok list ↔
      ∃ os, List.Forall₂ Yields (first :: others.map Prod.snd) os ∧
        list = ⟨Stack.operationSettings
          (if others.head?.map Prod.fst = some ';' then .semicolon else .comma),
          os.map .leaf⟩ := by
  have steps : ∀ os, (∃ trees, List.Forall₂ (fun o t => o.tree? = some t)
      (first :: others.map Prod.snd) trees ∧
        List.Forall₂ (fun t o => FilterOperation.ofTree t = .ok o) trees os) ↔
      List.Forall₂ Yields (first :: others.map Prod.snd) os := by
    intro os
    rw [exists_forall₂_forall₂_iff]
    simp only [exists_ofTree_iff]
  rw [Stack.readOperations_eq_ok_iff, trimEnd_listText one more]
  simp only [wholeFilterOperations_readAll_iff one more]
  constructor
  · rintro ⟨trees, _, os, ⟨made, rfl⟩, lowered, same, _⟩
    exact ⟨os, (steps os).mp ⟨trees, made, lowered⟩, same⟩
  · rintro ⟨os, yields, rfl⟩
    obtain ⟨trees, made, lowered⟩ := (steps os).mpr yields
    refine ⟨trees, _, os, ⟨made, rfl⟩, lowered, rfl, Stack.operates_lawful ?_⟩
    exact forall_of_forall₂ yields fun _ _ _ h => holds_of_yields h

/-- A text of one operation, and a list of such texts, is accepted just when each word names an
operation and each operation has a valid pair. What is read has the valid pairs and no others. -/
theorem accepted_iff_and_keeps (one : first.Tokens) (more : FurtherTokens others) :
    ((∃ r, FilterOperation.read first.text = .ok r) ↔ first.Acceptable) ∧
    (∀ r, FilterOperation.read first.text = .ok r → first.Keeps r) ∧
    ((∃ list, Stack.readOperations (listText first others) = .ok list) ↔
      first.Acceptable ∧ ∀ p ∈ others, p.2.Acceptable) ∧
    ∀ list, Stack.readOperations (listText first others) = .ok list →
      list.elements = list.leaves.map .leaf ∧
        List.Forall₂ Keeps (first :: others.map Prod.snd) list.leaves := by
  have single : ∀ r, FilterOperation.read first.text = .ok r ↔ first.Yields r := fun _ =>
    one.read_eq_ok_iff
  have several := readOperations_eq_ok_iff one more
  refine ⟨?_, ?_, ?_, ?_⟩
  · simp only [single, exists_yields_iff]
  · intro r read
    exact ((single r).mp read).keeps
  · have each : (∃ os, List.Forall₂ Yields (first :: others.map Prod.snd) os) ↔
        first.Acceptable ∧ ∀ p ∈ others, p.2.Acceptable := by
      rw [exists_forall₂_iff]
      simp only [exists_yields_iff, List.forall_mem_cons, List.forall_mem_map]
    rw [← each]
    simp only [several]
    exact ⟨fun ⟨_, os, made, _⟩ => ⟨os, made⟩, fun ⟨os, made⟩ => ⟨_, os, made, rfl⟩⟩
  · intro list read
    obtain ⟨os, made, rfl⟩ := (several list).mp read
    rw [Stack.leaves_of_leaves]
    exact ⟨rfl, made.imp fun _ _ h => h.keeps⟩

/-- Of the first operation one pair is kept: a name of attributes does not begin with a digit. -/
theorem accepted_with_invalid_term :
    let first : OperationText := ⟨"add", [("cn", "(cn=*)"), ("9x", "(a=b)")]⟩
    let others : List (Char × OperationText) := [(';', ⟨"Del", [("sn", "(sn=*)")]⟩)]
    first.text = "add=cn:(cn=*) && 9x:(a=b)" ∧
      (∃ r, FilterOperation.read first.text = .ok r ∧ first.Keeps r) ∧
      ∃ list, Stack.readOperations (listText first others) = .ok list ∧
        List.Forall₂ Keeps (first :: others.map Prod.snd) list.leaves := by
  intro first others
  have one : first.Tokens := by decide
  have more : FurtherTokens others := by
    intro p hp
    obtain rfl := List.mem_singleton.mp hp
    exact ⟨by decide, by decide⟩
  have valid : ∀ f, f = AttributeFilter.ofTexts "cn" "(cn=*)" ∨
      f = AttributeFilter.ofTexts "sn" "(sn=*)" → f.validate = .ok () := by
    rintro f (rfl | rfl) <;> decide
  have accepted : first.Acceptable := ⟨by decide, _, List.mem_cons_self, valid _ (.inl rfl)⟩
  have accepted' : ∀ p ∈ others, p.2.Acceptable := by
    intro p hp
    obtain rfl := List.mem_singleton.mp hp
    exact ⟨by decide, _, List.mem_cons_self, valid _ (.inr rfl)⟩
  obtain ⟨single, kept, several, each⟩ := accepted_iff_and_keeps one more
  obtain ⟨r, read⟩ := single.mpr accepted
  obtain ⟨list, readList⟩ := several.mpr ⟨accepted, accepted'⟩
  exact ⟨by decide +kernel, ⟨r, read, kept r read⟩, list, readList, (each list readList).2⟩

/-- A text with a pair that is no valid filter is accepted, and the pair is lost. -/
theorem invalid_term_lost :
    let o : OperationText := ⟨"add", [("cn", "(cn=*)"), ("9x", "(a=b)")]⟩
    o.Tokens ∧ o.text = "add=cn:(cn=*) && 9x:(a=b)" ∧
      (¬ ∀ f ∈ o.filters, f.validate = .ok ()) ∧
      ∃ r, FilterOperation.read o.text = .ok r ∧
        r.filters.leaves = [.ofTexts "cn" "(cn=*)"] ∧ r.filters.leaves ≠ o.filters := by
  intro o
  have kept : (FilterOperation.read o.text).toOption.map (·.filters.leaves) =
      some [.ofTexts "cn" "(cn=*)"] := by
    decide +kernel
  refine ⟨by decide, by decide +kernel, by decide, ?_⟩
  cases read : FilterOperation.read o.text with
  | error e =>
    rw [read] at kept
    cases kept
  | ok r =>
    rw [read] at kept
    have leaves : r.filters.leaves = [.ofTexts "cn" "(cn=*)"] := Option.some.inj kept
    refine ⟨r, rfl, leaves, ?_⟩
    rw [leaves]
    decide

end OperationText

end DirectoryAccess
