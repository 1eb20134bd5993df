namespace GraphAccess.Text

/-- Puts a character in front of the first piece. -/
def consToFirst (c : Char) : List (List Char) → List (List Char)
  | [] => [[c]]
  | p :: ps => (c :: p) :: ps

theorem consToFirst_ne_nil (c : Char) (ps : List (List Char)) : consToFirst c ps ≠ [] := by
  cases ps <;> simp [consToFirst]

theorem intercalate_consToFirst (sep : List Char) (c : Char) (ps : List (List Char)) :
    sep.intercalate (consToFirst c ps) = c :: sep.intercalate ps := by
  match ps with
  | [] => simp [consToFirst]
  | [p] => simp [consToFirst]
  | p :: q :: ps => simp [consToFirst, List.intercalate]

/-- The pieces of a text between the occurrences of a character; no text is one empty piece. -/
def fields (sep : Char) : List Char → List (List Char)
  | [] => [[]]
  | c :: cs => if c = sep then [] :: fields sep cs else consToFirst c (fields sep cs)

theorem fields_ne_nil (sep : Char) (cs : List Char) : fields sep cs ≠ [] := by
  cases cs with
  | nil => simp [fields]
  | cons c cs =>
    rw [fields]
    split
    · simp
    · exact consToFirst_ne_nil c _

theorem intercalate_fields (sep : Char) (cs : List Char) :
    [sep].intercalate (fields sep cs) = cs := by
  induction cs with
  | nil => simp [fields]
  | cons c cs ih =>
    rw [fields]
    split
    · next h => rw [List.intercalate_cons_of_ne_nil (fields_ne_nil sep cs), ih, h]; rfl
    · rw [intercalate_consToFirst, ih]

/-- The separator that ends a statement and its line. -/
def statementEnd : List Char := [' ', '.', '\n']

/-- The pieces of a text between the statement ends, read from the left. -/
def cutStatements : List Char → List (List Char)
  | ' ' :: '.' :: '\n' :: rest => [] :: cutStatements rest
  | c :: rest => consToFirst c (cutStatements rest)
  | [] => [[]]

theorem cutStatements_ne_nil (cs : List Char) : cutStatements cs ≠ [] := by
  fun_cases cutStatements cs with
  | case1 rest => simp
  | case2 c rest => exact consToFirst_ne_nil c _
  | case3 => simp

theorem intercalate_cutStatements (cs : List Char) :
    statementEnd.intercalate (cutStatements cs) = cs := by
  fun_induction cutStatements cs with
  | case1 rest ih =>
    rw [List.intercalate_cons_of_ne_nil (cutStatements_ne_nil rest), ih]
    rfl
  | case2 c rest _ ih => rw [intercalate_consToFirst, ih]
  | case3 => simp

/-- The statements of a text: its non-empty pieces between the statement ends. -/
def statements (s : String) : List String :=
  ((cutStatements s.toList).filter (· ≠ [])).map String.ofList

/-- A statement end between two texts is one of the statement ends that the whole is cut at. -/
theorem cutStatements_append (cs ds : List Char) :
    cutStatements (cs ++ statementEnd ++ ds) = cutStatements cs ++ cutStatements ds := by
  fun_induction cutStatements cs with
  | case1 rest ih =>
    rw [List.cons_append, List.cons_append, List.cons_append, List.cons_append, List.cons_append,
      List.cons_append, cutStatements, ih]
    rfl
  | case2 c rest notEnd ih =>
    have first : cutStatements (c :: rest ++ statementEnd ++ ds) =
        consToFirst c (cutStatements (rest ++ statementEnd ++ ds)) := by
      rw [List.cons_append, List.cons_append, cutStatements]
      intro left blank behind
      match rest, behind, notEnd with
      | [], behind, _ => simp [statementEnd] at behind
      | [a], behind, _ =>
        simp [statementEnd] at behind
      | a :: b :: rest, behind, notEnd =>
        simp only [List.cons_append, List.cons.injEq] at behind
        exact notEnd rest blank (by rw [behind.1, behind.2.1])
    rw [first, ih]
    cases pieces : cutStatements rest with
    | nil => exact absurd pieces (cutStatements_ne_nil rest)
    | cons p ps => rfl
  | case3 => simp [statementEnd, cutStatements]

theorem statements_append (s t : String) :
    statements (s ++ " .\n" ++ t) = statements s ++ statements t := by
  have chars : (s ++ " .\n" ++ t).toList = s.toList ++ statementEnd ++ t.toList := by
    simp [statementEnd]
  rw [statements, chars, cutStatements_append, List.filter_append, List.map_append]
  rfl

/-- The statements of texts with statement ends between them are those of the texts. -/
theorem statements_intercalate (ss : List String) :
    statements (" .\n".intercalate ss) = ss.flatMap statements := by
  induction ss with
  | nil => simp [statements, cutStatements]
  | cons s ss ih =>
    cases ss with
    | nil => simp
    | cons t ss =>
      rw [String.intercalate_cons_cons, statements_append, ih]
      rfl

theorem cutStatements_of_oneLine {cs : List Char} (h : '\n' ∉ cs) : cutStatements cs = [cs] := by
  fun_induction cutStatements cs with
  | case1 rest => simp at h
  | case2 c rest _ ih =>
    rw [ih fun hn => h (List.mem_cons_of_mem _ hn)]
    rfl
  | case3 => rfl

/-- A text without a line break is one statement. -/
theorem statements_of_oneLine {s : String} (nonempty : s.toList ≠ []) (h : '\n' ∉ s.toList) :
    statements s = [s] := by
  rw [statements, cutStatements_of_oneLine h]
  simp [nonempty]

def indentChar (c : Char) : List Char :=
  if c = '\n' then ['\n', ' ', ' ', ' ', ' '] else [c]

def indentChars (cs : List Char) : List Char := cs.flatMap indentChar

/-- Writes every line break as a line break followed by four blanks. -/
def indent (s : String) : String := String.ofList (indentChars s.toList)

theorem indentChars_of_ne {c : Char} (h : c ≠ '\n') (cs : List Char) :
    indentChars (c :: cs) = c :: indentChars cs := by
  rw [indentChars, List.flatMap_cons, indentChar, if_neg h]
  rfl

/-- A group: the text between braces, each set off by a blank. -/
def braced (s : String) : String := "\x7b " ++ s ++ " \x7d"

theorem toList_braced (s : String) :
    (braced s).toList = ['{', ' '] ++ s.toList ++ [' ', '}'] := by
  simp [braced]

end GraphAccess.Text
