namespace DecoratedNames.Text

/-- The text that follows the leftmost occurrence of a marker. -/
def after? (marker : List Char) : List Char → Option (List Char)
  | [] => marker.isPrefixOf? []
  | c :: text => marker.isPrefixOf? (c :: text) <|> after? marker text

end DecoratedNames.Text
