import CodeGraph.Language.Basic

/-! # The tables of Go -/

namespace CodeGraph.Language

def goTables : Tables where
  name := "go"
  simpleNames := ["identifier", "type_identifier", "field_identifier", "package_identifier"]
  references := ["identifier"]
  declarations := ["function_declaration", "method_declaration", "type_spec"]
  callables := ["function_declaration", "method_declaration"]
  typed := [("parameter_declaration", "type"), ("var_spec", "type"), ("field_declaration", "type"),
    ("function_declaration", "result"), ("method_declaration", "result")]
  typeNames := ["type_identifier"]
  qualifiedTypes := ["qualified_type"]
  calls := [("call_expression", "function")]
  calleeNameFields := ["field"]

end CodeGraph.Language
