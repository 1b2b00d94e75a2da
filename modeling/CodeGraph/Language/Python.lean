import CodeGraph.Language.Basic

/-! # The tables of Python -/

namespace CodeGraph.Language

def pythonTables : Tables where
  name := "python"
  simpleNames := ["identifier"]
  references := ["identifier"]
  declarations := ["class_definition", "function_definition"]
  callables := ["class_definition", "function_definition"]
  typed := [("typed_parameter", "type"), ("typed_default_parameter", "type"),
    ("function_definition", "return_type")]
  typeNames := ["identifier"]
  qualifiedTypes := ["attribute"]
  calls := [("call", "function")]
  calleeNameFields := ["attribute"]

end CodeGraph.Language
