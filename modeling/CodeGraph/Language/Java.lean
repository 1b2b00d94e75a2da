import CodeGraph.Language.Basic

/-! # The tables of Java -/

namespace CodeGraph.Language

def javaTables : Tables where
  name := "java"
  simpleNames := ["identifier", "type_identifier"]
  references := ["identifier"]
  declarations := ["class_declaration", "interface_declaration", "enum_declaration",
    "record_declaration", "annotation_type_declaration", "method_declaration",
    "constructor_declaration", "enum_constant", "variable_declarator", "formal_parameter"]
  callables := ["method_declaration", "constructor_declaration"]
  typed := [("field_declaration", "type"), ("local_variable_declaration", "type"),
    ("formal_parameter", "type"), ("method_declaration", "type")]
  typeNames := ["type_identifier"]
  qualifiedTypes := ["scoped_type_identifier"]
  calls := [("method_invocation", "name"), ("object_creation_expression", "type")]
  calleeNameFields := []

end CodeGraph.Language
