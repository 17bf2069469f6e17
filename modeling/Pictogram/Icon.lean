import Pictogram.Element.Basic

/-! # The icon

Two outlines on a field of 24 by 24 units: the border of the field, which is not painted, and a triangle
that points up.
-/
namespace Pictogram.Icon
set_option autoImplicit false

def namespaceUri : String := "http://www.w3.org/2000/svg"

def viewBox : String := "0 0 24 24"

/-- The class that gives the icon its width on the page. -/
def sizeClass : String := "w-5"

def squareOutline : String := "M0 0h24v24H0z"

def squareFill : String := "none"

def triangleOutline : String := "M7 14l5-5 5 5z"

/-- The triangle has the colour of the text around it. -/
def triangleFill : String := "currentColor"

/-- The names in the order in which the icon uses them. -/
def constants : List String :=
  [namespaceUri, viewBox, sizeClass, squareOutline, squareFill, triangleOutline, triangleFill]

def path (outline fill : String) : Element :=
  ({ tag := "path" } : Element).setAttribute "d" outline |>.setAttribute "fill" fill

def arrowUp : Element :=
  ({ tag := "svg" } : Element).setAttribute "xmlns" namespaceUri
    |>.setAttribute "class" sizeClass
    |>.setAttribute "viewBox" viewBox
    |>.push (path squareOutline squareFill)
    |>.push (path triangleOutline triangleFill)

end Pictogram.Icon
