import GraphAccess.Retrieval.Membership

namespace GraphAccess

/-- One way for a value to belong to an attribute. -/
structure Alternative where
  /-- What to retrieve about the value. -/
  template : Pattern
  /-- What the value has to match. -/
  condition : Pattern
  deriving Repr

/-- An alternative as it is written. -/
@[ext] structure AlternativeText where
  template : String
  condition : String
  deriving DecidableEq, Repr

/-- Both texts under their headings. -/
def AlternativeText.labelled (a : AlternativeText) : String :=
  "CONSTRUCT:\n" ++ a.template ++ "\nFILTER:\n" ++ a.condition

namespace Alternative

def text (a : Alternative) : AlternativeText := ⟨a.template.text, a.condition.text⟩

/-- A pattern that is both retrieved and required. -/
def ofTriple (t : TriplePattern) : Alternative := ⟨.triple t, .triple t⟩

/-- The alternative of all of them at once: each condition is solved on its own. -/
def merge (as : List Alternative) : Alternative where
  template := .sequence .statementEnd (as.map template)
  condition := .sequence .lineBreak (as.map fun a => .group a.condition)

theorem text_merge (as : List Alternative) :
    (merge as).text =
      ⟨" .\n".intercalate (as.map (·.text.template)),
        "\n".intercalate (as.map fun a => Text.braced a.text.condition)⟩ := by
  simp [merge, text, Pattern.text_sequence, Separator.text, Function.comp_def, Pattern.text]

end Alternative

/-- The alternative for a value that is an embedded resource of a type. The type has to demand one
RDF type, which is what is retrieved. -/
def Profile.embeddedAlternative (registry : Profile) (v : Variable) (id : TypeId) :
    Except CompileError Alternative :=
  match registry.find? id with
  | none => .error (.unknownType id)
  | some t =>
    match t.rdfTypes with
    | [type] =>
      (t.membership registry v).map fun condition =>
        ⟨.triple ⟨v, .isA, .iri type⟩, condition⟩
    | types => .error (.embeddedRdfTypes id types.length)

namespace Rule

mutual

/-- The alternatives for what a variable is bound to, by the rule for an attribute's values. -/
def alternatives (registry : Profile) (settings : Settings) (v : Variable) :
    Rule → Except CompileError (List Alternative)
  | anyOf rules => alternativesOfAll registry settings v rules
  | allOf rules =>
    (alternativesOfAll registry settings v rules).map fun as => [Alternative.merge as]
  | instanceOf _ =>
    (settings.typeVariable v).map fun type => [.ofTriple ⟨v, .isA, .var type⟩]
  | embeds type => (registry.embeddedAlternative v type).map ([·])
  | inScheme scheme =>
    .ok [.ofTriple ⟨v, .predicate Vocabulary.skosInScheme, .iri scheme⟩]
  | literal | datatype _ | languageIn _ | snippet _ => .ok []
  | rule => .error (.unsupportedRule .values rule.kind)

/-- The alternatives of some rules, one rule after the other. -/
def alternativesOfAll (registry : Profile) (settings : Settings) (v : Variable) :
    List Rule → Except CompileError (List Alternative)
  | [] => .ok []
  | rule :: rules => do
    let as ← alternatives registry settings v rule
    let bs ← alternativesOfAll registry settings v rules
    .ok (as ++ bs)

end

/-- What a rule of an attribute itself adds to its alternatives. Counts are checked once the
values have been retrieved. -/
def attributeAlternatives (registry : Profile) (settings : Settings) (v : Variable) :
    Rule → Except CompileError (List Alternative)
  | range rule => rule.alternatives registry settings v
  | minCount _ | maxCount _ | minPerLanguage _ | maxPerLanguage _ => .ok []
  | rule => .error (.unsupportedRule .values rule.kind)

end Rule

/-- The alternatives of an attribute's rules. -/
def Attribute.alternatives (registry : Profile) (settings : Settings) (a : Attribute) :
    Except CompileError (List Alternative) :=
  (a.rules.mapM (Rule.attributeAlternatives registry settings a.valueVariable)).map List.flatten

theorem Rule.alternativesOfAll_eq_mapM (registry : Profile) (settings : Settings) (v : Variable)
    (rules : List Rule) :
    alternativesOfAll registry settings v rules =
      (rules.mapM (Rule.alternatives registry settings v)).map List.flatten := by
  induction rules with
  | nil => rfl
  | cons rule rules ih =>
    rw [alternativesOfAll, ih, List.mapM_cons]
    cases Rule.alternatives registry settings v rule with
    | error e => rfl
    | ok as => cases rules.mapM (Rule.alternatives registry settings v) <;> rfl

end GraphAccess
