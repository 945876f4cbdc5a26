import QtMigration.Text.Basic

/-!
# Catalogue/Discarded — names that the new library no longer has

Classes that were dropped, and methods that moved or became superfluous.
-/

namespace QtMigration

namespace Catalogue

/-- The OpenGL classes that were dropped. -/
def droppedOpenGL : List Text :=
  ["QGLBuffer", "QGLColormap", "QGLFramebufferObject", "QGLFramebufferObjectFormat",
   "QGLPixelBuffer", "QGLShader", "QGLShaderProgram"].map String.toList

/-- The methods of the application object that belong to its class. -/
def applicationMethods : List Text :=
  ["addLibraryPath", "applicationDirPath", "applicationFilePath", "applicationName",
   "applicationPid", "applicationVersion", "argc", "arguments", "argv", "closingDown", "exec_",
   "exit", "flush", "hasPendingEvents", "installTranslator", "instance", "libraryPaths",
   "organizationDomain", "organizationName", "postEvent", "processEvents", "quit",
   "removeLibraryPath", "removePostedEvents", "removeTranslator", "sendEvent", "sendPostedEvents",
   "setApplicationName", "setApplicationVersion", "setAttribute", "setLibraryPaths",
   "setOrganizationDomain", "setOrganizationName", "startingUp", "testAttribute", "translate",
   "aboutQt", "activeModalWidget", "activePopupWidget", "activeWindow", "alert", "allWidgets",
   "beep", "changeOverrideCursor", "clipboard", "closeAllWindows", "colorSpec", "cursorFlashTime",
   "desktop", "desktopSettingsAware", "doubleClickInterval", "focusWidget", "font", "fontMetrics",
   "globalStrut", "isEffectEnabled", "isLeftToRight", "isRightToLeft", "keyboardInputDirection",
   "keyboardInputInterval", "keyboardInputLocale", "keyboardModifiers", "layoutDirection",
   "mouseButtons", "overrideCursor", "palette", "queryKeyboardModifiers", "quitOnLastWindowClosed",
   "restoreOverrideCursor", "setActiveWindow", "setColorSpec", "setCursorFlashTime",
   "setDesktopSettingsAware", "setDoubleClickInterval", "setEffectEnabled", "setFont",
   "setGlobalStrut", "setGraphicsSystem", "setKeyboardInputInterval", "setLayoutDirection",
   "setOverrideCursor", "setPalette", "setQuitOnLastWindowClosed", "setStartDragDistance",
   "setStartDragTime", "setStyle", "setWheelScrollLines", "setWindowIcon", "startDragDistance",
   "startDragTime", "style", "syncX", "topLevelAt", "topLevelWidgets", "type", "wheelScrollLines",
   "widgetAt", "windowIcon"].map String.toList

/-- The conversions of a variant that are no longer needed. -/
def variantMethods : List Text :=
  ["toBitArray", "toChar", "toEasingCurve", "toHash", "toLineF", "toLocale", "toMap",
   "toModelIndex", "toPyObject", "toReal", "toRectF", "toRegExp", "toSizeF", "toUrl", "toUuid"].map String.toList

end Catalogue

end QtMigration
